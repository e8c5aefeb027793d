import ProtoSchema.Proofs.Program.Places

/-! # What is read of a source

A node is read from a source if some of its tokens, from the first one on, are a text of the node,
and this text ends there. -/

namespace ProtoSchema

theorem parse_eq_ok {n : Node} {source : String} {t : n.Tree} :
    parse n source = .ok t ↔ ∃ d, n.parser (.ofSource source) = .ok t d := by
  change outcome (n.parser (.ofSource source)) = .ok t ↔ _
  cases n.parser (.ofSource source) <;> simp [outcome]

/-- The lexemes with which a source begins can be read from their texts. -/
theorem scans_of_lex {source : String} {w : List Lexeme} {rest : List Item}
    (items : lex source = w.map .token ++ rest) : ∀ t ∈ tokens w, t.Scans := by
  intro t ht
  obtain ⟨l, hl, rfl⟩ := List.mem_map.1 ht
  have mem : Item.token l ∈ lex source := items ▸ List.mem_append_left _ (List.mem_map_of_mem hl)
  exact scans_of_mem_items mem

theorem ahead_of_lex {source : String} {w : List Lexeme} {rest : List Item}
    (items : lex source = w.map .token ++ rest) :
    (Cursor.ofSource source).ahead = answers w ++ rest.map some := by
  rw [Cursor.ofSource, Cursor.ofItems, Cursor.ahead_ofAnswers, items]
  simp [answers, Function.comp_def]

/-- That a source begins with some lexemes, which are a text of a tree and end in front of the items
behind them. -/
structure Node.Fronts (n : Node) (source : String) (t : n.Tree) (w : List Lexeme)
    (rest : List Item) : Prop where
  items : lex source = w.map .token ++ rest
  text : n.phrase (tokens w) t
  stops : n.Stops t (rest.map some)

namespace Node.Fronts

variable {n : Node} {source : String} {t : n.Tree} {w w' : List Lexeme} {rest rest' : List Item}

theorem reads (h : n.Fronts source t w rest) : parse n source = .ok t := by
  obtain ⟨d, run, -⟩ := runs_of_phrase (ahead_of_lex h.items) h.text h.stops
  exact parse_eq_ok.2 ⟨d, run⟩

theorem of_parse (read : parse n source = .ok t) : ∃ w rest, n.Fronts source t w rest := by
  obtain ⟨d, run⟩ := parse_eq_ok.1 read
  obtain ⟨w, used, moves, text⟩ := phrase_of_run run
  obtain ⟨k, xs, passed, ahead⟩ := moves.ahead
  rw [Cursor.ofSource, Cursor.ofItems, Cursor.ahead_ofAnswers] at ahead
  obtain ⟨rest, items⟩ := items_passed ahead passed
  exact ⟨w, rest, items, text, stops_of_run (ahead_of_lex items) run moves.taken⟩

/-- A tree is read on one front of a source. -/
theorem unique (h : n.Fronts source t w rest) (h' : n.Fronts source t w' rest') :
    w = w' ∧ rest = rest' := by
  obtain ⟨d, run, taken⟩ := runs_of_phrase (ahead_of_lex h.items) h.text h.stops
  obtain ⟨d', run', taken'⟩ := runs_of_phrase (ahead_of_lex h'.items) h'.text h'.stops
  obtain ⟨-, rfl⟩ := EStateM.Result.ok.inj (run.symm.trans run')
  obtain rfl : w = w' := by simpa using taken.symm.trans taken'
  exact ⟨rfl, List.append_cancel_left (h.items.symm.trans h'.items)⟩

end Node.Fronts

end ProtoSchema
