import ProtoSchema.Proofs.Reading.Block

/-! # Reading files

A file reads its production with any number of package statements. That there is at most one is
seen from the statements it has collected. -/

namespace ProtoSchema.Parser
open Cursor Phrase

variable {n : Nat} {α : Type}

theorem viable_version : Grammar.version.Viable [⟨.stringLiteral, "\"proto3\""⟩] :=
  viable_of_text Grammar.text_version

theorem reads_versionLiteral : Reads n none versionLiteral Grammar.version := by
  apply Reads.peek
  intro t
  split
  · split
    · next h => exact Reads.take.mono fun ts a ⟨hts, ha⟩ => ⟨hts, ha.trans (congrArg _ h)⟩
    · exact .fail viable_version.front (fun s t ht => ht ▸ viable_version) fun c h => ⟨rfl, rfl, h⟩
  · exact .fail viable_version.front (fun s t ht => ht ▸ viable_version) fun c h => ⟨rfl, rfl, h⟩
  · exact .fail viable_version.front (fun s t ht => ht ▸ viable_version) fun c h => ⟨rfl, rfl, h⟩

theorem reads_syntaxDecl : Reads n none syntaxDecl Grammar.syntaxDecl := by
  refine (Reads.expect _).bind fun _ => (Reads.expect _).bind fun _ =>
    reads_versionLiteral.bind fun value => .look fun t => ?_
  split
  · next h => exact (Reads.take_kind h).map
  · have start (t : Token) (h : t.kind = .semicolon) :
        (kind .semicolon >>= fun _ => (pure ⟨value⟩ : Phrase SyntaxDecl)).Viable [t] :=
      viable_of_text (text_bind_pure (text_kind h))
    exact .fail (start ⟨.semicolon, ""⟩ rfl).front (fun s t ht => start t ht) fun c h =>
      ⟨rfl, rfl, h⟩

theorem reads_importModifier : Reads n none importModifier
    (optional (kind (.keyword .publicKw) ⊔ kind (.keyword .weakKw))) := by
  apply Reads.look
  intro t
  split
  · next h => exact (Reads.take_kind h).map.mono (le_sup_of_le_left (map_mono le_sup_left))
  · next h => exact (Reads.take_kind h).map.mono (le_sup_of_le_left (map_mono le_sup_right))
  · exact (Reads.pure none).mono le_sup_right

theorem reads_importPath : Reads n none importPath (kind .stringLiteral) := by
  apply Reads.look
  intro t
  split
  · next h => exact .take_kind h
  · exact .fail (viable_kind _) (fun s t ht => ⟨[], t, rfl, ht⟩) fun c h => ⟨rfl, rfl, h⟩

theorem reads_importStatement : Reads n none importStatement Grammar.importStatement :=
  (Reads.expect _).bind fun _ => reads_importModifier.bind fun _ => reads_importPath.bind fun _ =>
    (Reads.expect _).map

theorem reads_package : Reads n none package Grammar.package :=
  (Reads.expect _).bind fun _ => reads_fullIdent.bind fun _ => (Reads.expect _).map

/-! ## Statements and files -/

/-- What stands at a cursor's place does not depend on what is still to come. -/
theorem reads_get {seen : Option (Option Token)} {P : Phrase α} {f : Cursor → Parser α}
    (same : ∀ c d, c.sighting = d.sighting → f c = f d) (h : ∀ c, Reads n seen (f c) P) :
    Reads n seen (get >>= f) P where
  viable := (h (.ofAnswers [])).viable
  run c hc := by
    obtain ⟨used, covers, steady⟩ := (h c).run c hc
    refine ⟨used, covers, fun hi as small => ?_⟩
    have alike := same (c.facing (used ++ as)) c rfl
    exact (congrFun alike _).trans (steady hi as small)

theorem reads_duplicate {seen : Option (Option Token)} {P : Phrase α} (h : P.Viable [])
    (first second : Span) : Reads n seen (throw (.duplicatePackage first second)) P where
  viable := h
  run c _ :=
    ⟨[], ⟨[], c, .refl c, rfl, fun _ hv => absurd rfl (hv.1 first second)⟩, fun _ _ _ => rfl⟩

theorem reads_onlyPackage (earlier : List Statement) :
    Reads n none (onlyPackage earlier) Grammar.packageStatement := by
  refine reads_get (fun c d h => by simp only [h]) fun c => Reads.mono (reads_package.bind
    (F := fun read => pure (Statement.package read c.sighting.span)) fun read => ?_) ?_
  · split
    · exact reads_duplicate (viable_pure _) _ _
    · exact .pure _
  · intro ts s h
    obtain ⟨p, hp, rfl⟩ := map_iff.1 h
    exact ⟨p, _, hp, rfl⟩

theorem viable_option (t : Token) (h : t.kind = .keyword .optionKw) :
    Grammar.optionStatement.Viable [t] := by
  have rest : (Grammar.optionSetting >>= fun setting =>
      kind .semicolon >>= fun _ => (pure setting : Phrase OptionSetting)).Viable [] :=
    (reads_optionSetting (n := 0)).viable.bind fun _ => viable_last _ _
  exact viable_cons h rest

theorem viable_head {word : Keyword} {F : Token → Phrase α} (t : Token) (h : t.kind = .keyword word)
    (hF : ∀ name, (F name).Viable []) : (Grammar.blockHead word >>= F).Viable [t] := by
  have rest : (Grammar.identifier >>= fun name =>
      kind .leftBrace >>= fun _ => (pure name : Phrase Token)).Viable [] :=
    (viable_kind _).bind fun _ => viable_last _ _
  exact (viable_cons h rest).bind hF

theorem viable_statement (t : Token) (h : t.kind ∈ [.keyword .importKw, .keyword .packageKw,
    .keyword .optionKw, .keyword .messageKw, .keyword .enumKw]) : Grammar.statement.Viable [t] := by
  simp only [List.mem_cons, List.not_mem_nil, or_false] at h
  rcases h with h | h | h | h | h
  · have path : (kind .stringLiteral >>= fun path => kind .semicolon >>= fun _ =>
        (pure ⟨path, none⟩ : Phrase Import)).Viable [] :=
      (viable_kind _).bind fun _ => viable_last _ _
    have start : Grammar.importStatement.Viable [t] :=
      viable_cons h (by simpa using viable_bind_append text_none path)
    exact (viable_map _ start).mono Grammar.import_le_statement
  · have rest : (Grammar.fullIdent >>= fun name =>
        kind .semicolon >>= fun _ => (pure ⟨name⟩ : Phrase Package)).Viable [] :=
      (reads_fullIdent (n := 0)).viable.bind fun _ => viable_last _ _
    have start : Grammar.package.Viable [t] := viable_cons h rest
    obtain ⟨vs, p, hp⟩ := start
    exact ⟨vs, .package p (.at 0), Grammar.package_le_statement _ _ ⟨p, _, hp, rfl⟩⟩
  · exact (viable_map _ (viable_option t h)).mono Grammar.option_le_statement
  · have message : Grammar.message.Viable [t] := by
      rw [← Grammar.messageOf_message]
      exact viable_head t h fun _ => (viable_members _).bind fun _ => viable_pure _
    exact (viable_map _ message).mono Grammar.message_le_statement
  · have enum : Grammar.enum.Viable [t] :=
      viable_head t h fun _ => (viable_members _).bind fun _ => viable_pure _
    exact (viable_map _ enum).mono Grammar.enum_le_statement

theorem orStop_of_le {β γ : Type} {P : Phrase α} {R : Phrase β} {Q : Phrase γ} {g : α → β}
    (h : g <$> P ≤ R) : (fun a => some (g a)) <$> P ≤ orStop R Q := by
  refine le_trans (le_of_eq ?_) (le_sup_of_le_left (map_mono h))
  exact comp_map g some P

theorem reads_statement (earlier : List Statement) :
    Reads n none (statement earlier) (orStop Grammar.statement (pure ())) := by
  apply Reads.look
  intro t
  split
  · next h => exact (Reads.take_kind h).map.mono (orStop_of_le Grammar.empty_le_statement)
  · exact reads_importStatement.map.looked.mono (orStop_of_le Grammar.import_le_statement)
  · exact (reads_onlyPackage earlier).map.looked.mono
      (le_sup_of_le_left (map_mono Grammar.package_le_statement))
  · exact reads_optionStatement.map.looked.mono (orStop_of_le Grammar.option_le_statement)
  · exact reads_message.map.looked.mono (orStop_of_le Grammar.message_le_statement)
  · exact reads_enum.map.looked.mono (orStop_of_le Grammar.enum_le_statement)
  · refine .fail ((viable_map _ (viable_pure ())).mono le_sup_right) (fun s t ht => ?_)
      fun c h => ⟨rfl, rfl, h⟩
    exact (viable_map _ (viable_statement t ht)).mono le_sup_left
  · exact (Reads.pure none).mono (le_sup_of_le_right (map_pure (fun _ => none) ()).ge)

theorem advances_statement : Grammar.statement.Advances := by
  refine .sup (.sup (.sup (.sup (.sup ?_ ?_) ?_) ?_) ?_) ?_
  · exact (advances_kind _).bind_left
  · exact advances_map _ (advances_kind _).bind_left
  · rintro _ ⟨p, place, h, -⟩
    exact (advances_kind _).bind_left p h
  · exact advances_map _ (advances_kind _).bind_left
  · exact advances_map _ advances_message
  · exact advances_map _ (advances_blockHead _).bind_left

theorem reads_statements : Reads n none (collect statement) (many Grammar.statement) :=
  (Reads.collect advances_statement (viable_pure ()) reads_statement).mono upTo_pure.le

theorem reads_file : Reads n none file Grammar.openFile := by
  rw [Grammar.openFile, Grammar.fileWhere]
  simp only [guard_true, pure_bind]
  exact reads_syntaxDecl.bind fun version => reads_statements.map

/-! ## At most one package -/

/-- What every step of a loop preserves holds of everything that was found. -/
theorem collectWithin_preserves {I : List α → Prop} {step : List α → Parser (Option α)}
    (hstep : ∀ found c a c', I found → step found c = .ok (some a) c' → I (a :: found))
    {k : Nat} {found as : List α} {c c' : Cursor} (h : I found)
    (run : collectWithin step k found c = .ok as c') : I as.reverse := by
  induction k generalizing found c with
  | zero => cases run
  | succ k ih =>
    obtain ⟨o, c₁, hs, rest⟩ := bind_eq_ok.1 run
    cases o with
    | some a => exact ih (hstep _ _ _ _ h hs) rest
    | none =>
      cases rest
      simpa using h

theorem packages_reverse (statements : List Statement) :
    Grammar.packages statements.reverse = Grammar.packages statements := by
  simp [Grammar.packages]

theorem no_keyword_iff {statements : List Statement} :
    statements.findSome? Statement.packageKeyword? = none ↔ Grammar.packages statements = 0 := by
  rw [List.findSome?_eq_none_iff, Grammar.packages, List.length_eq_zero_iff,
    List.filterMap_eq_nil_iff]
  refine forall₂_congr fun s _ => ?_
  cases s <;> simp [Statement.package?, Statement.packageKeyword?]

/-- A package statement is answered only where there is none in front of it. -/
theorem packages_onlyPackage {earlier : List Statement} {c c' : Cursor} {s : Statement}
    (run : onlyPackage earlier c = .ok s c') : Grammar.packages earlier = 0 := by
  obtain ⟨_, _, -, run⟩ := bind_eq_ok.1 run
  obtain ⟨_, _, -, run⟩ := bind_eq_ok.1 run
  cases h : earlier.findSome? Statement.packageKeyword? with
  | some first =>
    rw [h] at run
    cases run
  | none => exact no_keyword_iff.1 h

theorem packages_cons {s : Statement} {earlier : List Statement} :
    Grammar.packages (s :: earlier) = s.package?.toList.length + Grammar.packages earlier := by
  unfold Grammar.packages
  cases h : s.package? <;> simp [h]
  omega

theorem packages_statement {earlier : List Statement} {c c' : Cursor} {s : Statement}
    (h : Grammar.packages earlier ≤ 1) (run : statement earlier c = .ok (some s) c') :
    Grammar.packages (s :: earlier) ≤ 1 := by
  have other (s : Statement) (hs : s.package? = none) : Grammar.packages (s :: earlier) ≤ 1 := by
    rw [packages_cons, hs]
    simpa using h
  obtain ⟨t, c₁, -, run⟩ := bind_eq_ok.1 run
  split at run
  case h_3 =>
    obtain ⟨s, _, hs, run⟩ := bind_eq_ok.1 run
    cases run
    have := packages_onlyPackage hs
    have : s.package?.toList.length ≤ 1 := by cases s.package? <;> simp
    rw [packages_cons]
    omega
  case h_7 => cases run
  case h_8 => cases run
  all_goals
    obtain ⟨_, _, -, run⟩ := bind_eq_ok.1 run
    cases run
    exact other _ rfl

/-- What a file was read from is a text of its production, with at most one package statement. -/
theorem file_of_run {c c' : Cursor} {f : File} (run : file c = .ok f c') :
    ∃ w used, c.Moves w used c' ∧ Grammar.file (tokens w) f := by
  obtain ⟨version, c₁, hv, run⟩ := bind_eq_ok.1 run
  obtain ⟨statements, c₂, hs, run⟩ := bind_eq_ok.1 run
  cases run
  obtain ⟨used, first, -⟩ := reads_syntaxDecl.run c ⟨Nat.lt_succ_self _, nofun⟩
  obtain ⟨used', second, -⟩ := reads_statements.run c₁ ⟨Nat.lt_succ_self _, nofun⟩
  rw [hv] at first
  rw [hs] at second
  obtain ⟨v, hmv, hpv⟩ := first
  obtain ⟨w, hmw, hpw⟩ := second
  have bound : Grammar.packages statements.reverse ≤ 1 :=
    collectWithin_preserves (fun _ _ _ _ => packages_statement) (by simp [Grammar.packages]) hs
  rw [packages_reverse] at bound
  exact ⟨v ++ w, _, hmv.trans hmw,
    Grammar.fileWhere_iff.2 ⟨_, _, version, statements, hpv, hpw, bound, rfl, tokens_append v w⟩⟩

end ProtoSchema.Parser
