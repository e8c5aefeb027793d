import ProtoSchema.Parser.File
import ProtoSchema.Proofs.Trace.Report

/-! # Productions without braces

Names, constants, options, fields and the statements of a file take no braces and close no blocks.
Those which end with a semicolon take no other one. -/

namespace ProtoSchema

variable {α β : Type} {seen : Option (Option Token)} {p : Parser α} {f : α → Parser β} {n : Nat}

namespace Reports

theorem still_pure (a : α) : Reports seen (Pure.pure a) (Still 0) := .pure (.nil a)

theorem still_bind (hp : Reports seen p (Still 0)) (hf : ∀ a, Reports none (f a) (Still n)) :
    Reports seen (p >>= f) (Still n) :=
  hp.bind hf (fun _ _ _ h => .inl h.logged) fun _ b _ _ _ _ h h' => by simpa using h.append h' b

theorem still_map {g : α → β} (hp : Reports seen p (Still n)) :
    Reports seen (p >>= fun a => Pure.pure (g a)) (Still n) := hp.map fun _ _ _ h => h

/-- A token of a kind that neither opens, closes nor ends anything. -/
theorem still_take {t : Option Token} {k : TokenKind} (h : t.map Token.kind = some k)
    (plain : k ∉ [TokenKind.leftBrace, .rightBrace, .semicolon]) :
    Reports (some t) Cursor.take (Still 0) := by
  refine (take h).mono fun u ts es one => ?_
  obtain ⟨rfl, rfl, rfl⟩ := one
  simp only [List.mem_cons, List.not_mem_nil, or_false, not_or] at plain
  exact ⟨rfl, by simp [plain], by simp [countKind_cons, plain]⟩

theorem still_semicolon {t : Option Token} (h : t.map Token.kind = some .semicolon) :
    Reports (some t) Cursor.take (Still 1) := by
  refine (take h).mono fun u ts es one => ?_
  obtain ⟨rfl, kind, rfl⟩ := one
  exact ⟨rfl, by simp [kind], by simp [countKind_cons, kind]⟩

theorem still_expect {k : TokenKind} (plain : k ∉ [TokenKind.leftBrace, .rightBrace, .semicolon]) :
    Reports none (Cursor.expect k) (Still 0) := by
  apply look
  intro t
  split
  · next h => exact still_take h plain
  · exact fail _

theorem still_end : Reports none (Cursor.expect .semicolon) (Still 1) := by
  apply look
  intro t
  split
  · next h => exact still_semicolon h
  · exact fail _

theorem still_takeIf {k : TokenKind} (plain : k ∉ [TokenKind.leftBrace, .rightBrace, .semicolon]) :
    Reports none (Cursor.takeIf k) (Still 0) := by
  apply look
  intro t
  split
  · next h => exact (still_take h plain).still_map
  · exact still_pure none

theorem still_collect {step : List α → Parser (Option α)}
    (h : ∀ found, Reports none (step found) (Still 0)) :
    Reports none (Parser.collect step) (Still 0) := by
  have all : Reports none (Parser.collect step) _ :=
    collect (R := Still 0) (S := Still 0 ()) (A := Still 0)
      (fun found => (h found).mono fun o ts es still => by cases o <;> exact still)
      (fun _ _ _ still => still.logged) (.nil []) fun as a ts us es fs still still' =>
        still.append still' _
  refine all.mono fun as ts es report => ?_
  obtain ⟨us, vs, fs, gs, rfl, rfl, found, stop⟩ := report
  exact found.append stop as

end Reports

namespace Parser

theorem still_identifier : Reports none identifier (Still 0) := by
  apply Reports.look
  intro t
  split
  · next h => exact .still_take h (by decide)
  · exact .fail _

theorem still_nameOf (segments : List Token) : Reports seen (nameOf segments) (Still 0) := by
  cases segments with
  | nil => exact .throw _
  | cons t ts => exact .still_pure _

theorem still_fullIdent : Reports none fullIdent (Still 0) := by
  refine .still_bind still_identifier fun first =>
    .still_bind (.still_collect fun _ => ?_) fun rest => still_nameOf _
  refine (Reports.still_takeIf (by decide)).still_bind fun o => ?_
  cases o with
  | none => exact .still_pure none
  | some t => exact .still_map still_identifier

theorem still_sign : Reports none sign (Still 0) := by
  apply Reports.look
  intro t
  split
  · next h => exact (Reports.still_take h (by decide)).still_map
  · next h => exact (Reports.still_take h (by decide)).still_map
  · exact .still_pure none

theorem still_signedNumber : Reports none signedNumber (Still 0) := by
  refine .still_bind still_sign fun sign => .look fun t => ?_
  split
  · next h => exact (Reports.still_take h (by decide)).still_map
  · next h => exact (Reports.still_take h (by decide)).still_map
  · exact .fail _

theorem still_constant : Reports none constant (Still 0) := by
  apply Reports.look
  intro t
  have number : Reports (some t) (signedNumber >>= fun v => pure (Constant.number v)) (Still 0) :=
    .looked (.still_map still_signedNumber)
  split
  · next h => exact (Reports.still_take h (by decide)).still_map
  · exact number
  · exact number
  · exact number
  · exact number
  · next h =>
    exact (Reports.still_take h (by decide)).still_bind fun _ => (still_nameOf _).still_map
  · next h =>
    exact (Reports.still_take h (by decide)).still_bind fun _ => (still_nameOf _).still_map
  · exact .looked (.still_map still_fullIdent)
  · exact .fail _

theorem still_optionName : Reports none optionName (Still 0) := by
  apply Reports.look
  intro t
  split
  · next h =>
    refine (Reports.still_take h (by decide)).still_bind fun _ =>
      .still_bind still_fullIdent fun _ => (Reports.still_expect (by decide)).still_bind fun _ =>
        (Reports.still_takeIf (by decide)).still_bind fun o => ?_
    cases o with
    | none => exact .still_pure _
    | some t => exact .still_map still_fullIdent
  · exact .looked (.still_map still_fullIdent)

theorem still_optionSetting : Reports none optionSetting (Still 0) :=
  .still_bind still_optionName fun _ => (Reports.still_expect (by decide)).still_bind fun _ =>
    .still_map still_constant

theorem still_optionStatement : Reports none optionStatement (Still 1) :=
  (Reports.still_expect (by decide)).still_bind fun _ => .still_bind still_optionSetting fun _ =>
    .still_map .still_end

theorem still_optionList : Reports none optionList (Still 0) := by
  refine (Reports.still_takeIf (by decide)).still_bind fun o => ?_
  cases o with
  | none => exact .still_pure _
  | some t =>
    refine .still_bind still_optionSetting fun first =>
      .still_map (.still_collect fun _ => .look fun t => ?_)
    split
    · next h =>
      exact (Reports.still_take h (by decide)).still_bind fun _ => .still_map still_optionSetting
    · exact (Reports.still_expect (by decide)).still_map.looked

theorem still_fieldType : Reports none fieldType (Still 0) := by
  apply Reports.look
  intro t
  split
  · next h => exact (Reports.still_take h (by simp)).still_map
  · exact .looked (.still_map still_fullIdent)
  · next h =>
    exact (Reports.still_take h (by decide)).still_bind fun _ => .still_map still_fullIdent
  · exact .fail _

theorem still_fieldRest (repeated : Bool) : Reports none (fieldRest repeated) (Still 1) :=
  .still_bind still_fieldType fun _ => .still_bind still_identifier fun _ =>
    (Reports.still_expect (by decide)).still_bind fun _ =>
      (Reports.still_expect (by decide)).still_bind fun _ => .still_bind still_optionList fun _ =>
        .still_map .still_end

theorem still_field : Reports none field (Still 1) :=
  (Reports.still_takeIf (by decide)).still_bind fun label => still_fieldRest label.isSome

theorem still_oneofField : Reports none oneofField (Still 1) := by
  apply Reports.look
  intro t
  split
  · exact .fail _
  · exact (still_fieldRest false).looked

theorem still_enumField : Reports none enumField (Still 1) :=
  .still_bind still_identifier fun _ => (Reports.still_expect (by decide)).still_bind fun _ =>
    .still_bind still_sign fun _ => (Reports.still_expect (by decide)).still_bind fun _ =>
      .still_bind still_optionList fun _ => .still_map .still_end

theorem still_enumMember (t : Option Token) :
    Reports (some t) (enumMember (t.map Token.kind)) (Still 1) := by
  unfold enumMember
  split
  · exact .looked (.still_map still_optionStatement)
  · next h => exact (Reports.still_semicolon h).still_map
  · exact .looked (.still_map still_enumField)

theorem still_versionLiteral : Reports none versionLiteral (Still 0) := by
  apply Reports.peek
  intro t
  split
  · split
    · exact .still_take (k := .stringLiteral) rfl (by decide)
    · exact .fail _
  · exact .fail _
  · exact .fail _

theorem still_syntaxDecl : Reports none syntaxDecl (Still 1) := by
  refine (Reports.still_expect (by decide)).still_bind fun _ =>
    (Reports.still_expect (by decide)).still_bind fun _ => .still_bind still_versionLiteral fun _ =>
      .look fun t => ?_
  split
  · next h => exact (Reports.still_semicolon h).still_map
  · exact .fail _

theorem still_importModifier : Reports none importModifier (Still 0) := by
  apply Reports.look
  intro t
  split
  · next h => exact (Reports.still_take h (by decide)).still_map
  · next h => exact (Reports.still_take h (by decide)).still_map
  · exact .still_pure none

theorem still_importPath : Reports none importPath (Still 0) := by
  apply Reports.look
  intro t
  split
  · next h => exact .still_take h (by decide)
  · exact .fail _

theorem still_importStatement : Reports none importStatement (Still 1) :=
  (Reports.still_expect (by decide)).still_bind fun _ => .still_bind still_importModifier fun _ =>
    .still_bind still_importPath fun _ => .still_map .still_end

theorem still_package : Reports none package (Still 1) :=
  (Reports.still_expect (by decide)).still_bind fun _ => .still_bind still_fullIdent fun _ =>
    .still_map .still_end

end Parser

end ProtoSchema
