import ProtoSchema.Proofs.Print.RoundTrip
import ProtoSchema.Proofs.Print.Spelling
import ProtoSchema.Proofs.Rearrange.Basic
import ProtoSchema.Proofs.Rearrange.Sorting

/-! # Equal trees

Every text of a file can be rearranged into the written form of its tree: from the inside out, the
members of each body are put in order and the empty ones are left out. So two sources have equal
trees just where the tokens of one can be rearranged into those of the other. -/

namespace ProtoSchema

open Phrase Relation

namespace Body

def tokens : (b : Body) → b.Member → List Token
  | .file => Statement.tokens
  | .message => MessageMember.tokens
  | .enum => EnumMember.tokens

/-- The order in which the sorts of members are written. -/
def order : Body → List MemberSort
  | .file => [.package, .imported, .option, .message, .enum]
  | .message => [.field, .enum, .message, .oneof, .option]
  | .enum => [.option, .field]

theorem nodup_order (b : Body) : b.order.Nodup := by cases b <;> decide

theorem mem_order (b : Body) (a : b.Member) : ∀ s ∈ b.sort a, s ∈ b.order := by
  rintro s hs
  cases b <;> cases a <;> cases hs <;> decide

/-- The written form of a body with some members. -/
def written (b : Body) (as : List b.Member) : List Token :=
  (inOrder b.sort b.order as).flatMap b.tokens

/-- The members of one sort are written one after the other. -/
theorem flatMap_sort (b : Body) {β : Type} (as : List b.Member) (s : MemberSort)
    (g : b.Member → Option β) (w : β → List Token)
    (h : ∀ a, (if b.sort a = some s then b.tokens a else []) = ((g a).map w).getD []) :
    (as.filter fun a => b.sort a = some s).flatMap b.tokens = (as.filterMap g).flatMap w := by
  induction as with
  | nil => rfl
  | cons a as ih =>
    have here := h a
    by_cases ha : b.sort a = some s <;> cases hg : g a <;> simp_all

end Body

theorem Body.written_eq (b : Body) (as : List b.Member) : b.written as =
    b.order.flatMap fun s => (as.filter fun a => b.sort a = some s).flatMap b.tokens :=
  List.flatMap_assoc

theorem EnumBody.written_ofMembers (as : List EnumMember) : Body.written .enum as =
    (ofMembers as).options.flatMap OptionSetting.statement ++
      (ofMembers as).fields.flatMap EnumField.tokens := by
  have option := Body.flatMap_sort .enum as .option EnumMember.option? OptionSetting.statement
    fun a => by cases a <;> rfl
  have field := Body.flatMap_sort .enum as .field EnumMember.field? EnumField.tokens
    fun a => by cases a <;> rfl
  rw [Body.written_eq, Body.order, List.flatMap_cons, List.flatMap_singleton, option, field]
  rfl

theorem MessageBody.written_ofMembers (as : List MessageMember) :
    Body.written .message as = (ofMembers as).tokens := by
  have field := Body.flatMap_sort .message as .field MessageMember.field? Field.tokens
    fun a => by cases a <;> rfl
  have enum := Body.flatMap_sort .message as .enum MessageMember.enum? Enum.tokens
    fun a => by cases a <;> rfl
  have message := Body.flatMap_sort .message as .message MessageMember.message? Message.tokens
    fun a => by cases a <;> rfl
  have oneof := Body.flatMap_sort .message as .oneof MessageMember.oneof? Oneof.tokens
    fun a => by cases a <;> rfl
  have option := Body.flatMap_sort .message as .option MessageMember.option? OptionSetting.statement
    fun a => by cases a <;> rfl
  simp only [Body.written_eq, Body.order, List.flatMap_cons, List.flatMap_nil, List.append_nil,
    field, enum, message, oneof, option, ofMembers, tokens, Message.tokensList_eq_flatMap]

theorem File.written_ofStatements {as : List Statement} (few : Grammar.packages as ≤ 1)
    (version : SyntaxDecl) :
    version.tokens ++ Body.written .file as = (ofStatements version as).tokens := by
  have package := Body.flatMap_sort .file as .package Statement.package? Package.tokens
    fun a => by cases a <;> rfl
  have imported := Body.flatMap_sort .file as .imported Statement.import? Import.tokens
    fun a => by cases a <;> rfl
  have option := Body.flatMap_sort .file as .option Statement.option? OptionSetting.statement
    fun a => by cases a <;> rfl
  have message := Body.flatMap_sort .file as .message Statement.message? Message.tokens
    fun a => by cases a <;> rfl
  have enum := Body.flatMap_sort .file as .enum Statement.enum? Enum.tokens
    fun a => by cases a <;> rfl
  have single : as.filterMap Statement.package? = (as.findSome? Statement.package?).toList := by
    rw [← List.head?_filterMap]
    rw [Grammar.packages] at few
    cases named : as.filterMap Statement.package? with
    | nil => rfl
    | cons p others =>
      rw [named, List.length_cons] at few
      obtain rfl : others = [] := List.length_eq_zero_iff.1 (by omega)
      rfl
  simp only [Body.written_eq, Body.order, List.flatMap_cons, List.flatMap_nil, List.append_nil,
    package, imported, option, message, enum, single, ofStatements, tokens]

/-! ## Reaching the written form -/

namespace Body

variable {b : Body} {pre post us vs : List Token} {as bs : List b.Member}

/-- That a text can be rearranged into another one among the members of a body, wherever this
stands. -/
def Reaches (b : Body) (ts ts' : List Token) : Prop :=
  ∀ ⦃pre post us vs⦄ ⦃as bs : List b.Member⦄, Inside b pre post → many b.member us as →
    many b.member vs bs → ReflTransGen Rearranges (pre ++ (us ++ (ts ++ (vs ++ post))))
      (pre ++ (us ++ (ts' ++ (vs ++ post))))

/-- That a text of a member can be rearranged into the written form of this member. -/
structure Settles (b : Body) (ts : List Token) (a : b.Member) : Prop where
  text : b.member ts a
  written : b.member (b.tokens a) a
  reaches : b.Reaches ts (b.tokens a)

theorem settles_of_spells {P : Phrase b.Member} {ts : List Token} {a : b.Member}
    (text : b.member ts a) (h : P ts a) (scans : ∀ t ∈ ts, t.Scans)
    (spells : P.Spells b.tokens) : b.Settles ts a := by
  obtain rfl : ts = b.tokens a := spells ts a ⟨h, scans⟩
  exact ⟨text, text, fun _ _ _ _ _ _ _ _ _ => .refl⟩

theorem tokens_of_sort_eq_none {a : b.Member} (h : b.sort a = none) :
    b.tokens a = [.ofKind .semicolon] := by
  cases b <;> cases a <;> first | rfl | cases h

theorem many_tokens (h : ∀ a ∈ as, b.member (b.tokens a) a) :
    many b.member (as.flatMap b.tokens) as := by
  induction as with
  | nil => exact .nil
  | cons a as ih =>
    obtain ⟨first, rest⟩ := List.forall_mem_cons.1 h
    exact .cons first (ih rest)

/-- A change among members is one among their written forms. -/
theorem rearranges_of_sorts (place : Inside b pre post) (h : Sorts b.sort as bs)
    (written : ∀ a ∈ as, b.member (b.tokens a) a) :
    Rearranges (pre ++ (as.flatMap b.tokens ++ post)) (pre ++ (bs.flatMap b.tokens ++ post)) ∧
      ∀ a ∈ bs, b.member (b.tokens a) a := by
  cases h with
  | @drop front back a none =>
    obtain ⟨hf, hb⟩ := List.forall_mem_append.1 written
    have rest := (List.forall_mem_cons.1 hb).2
    refine ⟨?_, List.forall_mem_append.2 ⟨hf, rest⟩⟩
    rw [List.flatMap_append, List.flatMap_append, List.flatMap_cons, tokens_of_sort_eq_none none]
    exact .inside place (.empty (many_tokens hf) (many_tokens rest))
  | @swap front back a a' differ =>
    obtain ⟨hf, hb⟩ := List.forall_mem_append.1 written
    obtain ⟨first, hb⟩ := List.forall_mem_cons.1 hb
    obtain ⟨second, rest⟩ := List.forall_mem_cons.1 hb
    refine ⟨?_, List.forall_mem_append.2 ⟨hf, List.forall_mem_cons.2 ⟨second, List.forall_mem_cons.2
      ⟨first, rest⟩⟩⟩⟩
    simp only [List.flatMap_append, List.flatMap_cons]
    exact .inside place (.swap (many_tokens hf) first second differ (many_tokens rest))

theorem reaches_of_sorts (place : Inside b pre post) (h : ReflTransGen (Sorts b.sort) as bs)
    (written : ∀ a ∈ as, b.member (b.tokens a) a) : ReflTransGen Rearranges
      (pre ++ (as.flatMap b.tokens ++ post)) (pre ++ (bs.flatMap b.tokens ++ post)) := by
  induction h using ReflTransGen.head_induction_on with
  | refl => exact .refl
  | head step _ ih =>
    obtain ⟨first, written'⟩ := rearranges_of_sorts place step written
    exact .head first (ih written')

theorem reaches_tokens (place : Inside b pre post) {xs : List Token} {front : List b.Member}
    (hf : many b.member xs front) (h : many b.Settles us as) : ReflTransGen Rearranges
      (pre ++ (xs ++ (us ++ post))) (pre ++ (xs ++ (as.flatMap b.tokens ++ post))) := by
  induction h generalizing xs front with
  | nil => exact .refl
  | @cons ts vs a as ha has ih =>
    -- the members behind the first one still have their own texts, those in front are written
    have back : many b.member vs as := many_mono (fun _ _ h => h.text) _ _ has
    have first := ha.reaches place hf back
    have rest := ih (many_append hf (many_singleton ha.written))
    rw [List.append_assoc, List.append_assoc] at rest
    rw [List.append_assoc, List.flatMap_cons, List.append_assoc]
    exact first.trans rest

/-- A body is rearranged into its written form: each member by itself, and then all of them. -/
theorem reaches_written (place : Inside b pre post) (h : many b.Settles us as) :
    ReflTransGen Rearranges (pre ++ (us ++ post)) (pre ++ (b.written as ++ post)) := by
  have written : ∀ a ∈ as, b.member (b.tokens a) a := by
    clear place
    induction h with
    | nil => exact List.forall_mem_nil _
    | cons ha _ ih => exact List.forall_mem_cons.2 ⟨ha.written, ih⟩
  have sorted := sorts_inOrder b.nodup_order as fun a _ => b.mem_order a
  exact (reaches_tokens place .nil h).trans (reaches_of_sorts place sorted written)

/-- A block is rearranged by its body. -/
theorem reaches_block {outer : Body} {word : Keyword} {name : Token} (holds : outer ≠ .enum)
    (keyword : b.keyword? = some word) (named : name.kind = .identifier)
    (h : many b.Settles us as) :
    outer.Reaches (block word name us) (block word name (b.written as)) := by
  intro pre post xs ys _ _ place front back
  have head : Grammar.blockHead word [.ofKind (.keyword word), name, .ofKind .leftBrace] name :=
    Grammar.text_blockHead rfl named rfl
  have closing : (Token.ofKind .rightBrace).kind = .rightBrace := rfl
  have within := reaches_written (.block place holds front keyword head closing back) h
  simpa [block] using within

end Body

/-! ## From the inside out -/

theorem settles_enumMember : Grammar.enumMember.scanned ≤ Body.Settles .enum :=
  fun _ _ h => Body.settles_of_spells h.1 h.1 h.2 Grammar.spells_enumMember

theorem reaches_enum {b : Body} (holds : b ≠ .enum) {ts : List Token} {e : Enum}
    (h : Grammar.enum.scanned ts e) : b.Reaches ts e.tokens := by
  obtain ⟨name, us, as, named, body, rfl, rfl⟩ := Grammar.block_of_scanned h
  have within :=
    Body.reaches_block holds rfl named (many_mono settles_enumMember _ _ (many_scanned body))
  rwa [EnumBody.written_ofMembers] at within

theorem settles_enum {b : Body} (holds : b ≠ .enum) {ts : List Token} {e : Enum} {a : b.Member}
    (h : Grammar.enum.scanned ts e) (member : ∀ us, Grammar.enum us e → b.member us a)
    (tokens : b.tokens a = e.tokens) : b.Settles ts a where
  text := member ts h.1
  written := tokens ▸ member _ (Enum.scanned (Grammar.yields_enum ts e h.1 h.2)).1
  reaches := tokens ▸ reaches_enum holds h

/-- The messages that can be rearranged into their written forms, wherever they stand. -/
def settledMessage : Phrase Message := fun ts m =>
  Grammar.message ts m ∧ ((∀ t ∈ ts, t.Scans) → ∀ b : Body, b ≠ .enum → b.Reaches ts m.tokens)

theorem settles_message {b : Body} (holds : b ≠ .enum) {ts : List Token} {m : Message}
    {a : b.Member} (h : settledMessage.scanned ts m)
    (member : ∀ us, Grammar.message us m → b.member us a) (tokens : b.tokens a = m.tokens) :
    b.Settles ts a where
  text := member ts h.1.1
  written := tokens ▸ member _ (Message.scanned (Grammar.yields_message ts m h.1.1 h.2)).1
  reaches := tokens ▸ h.1.2 h.2 b holds

theorem settles_messageMember :
    (Grammar.messageMember settledMessage).scanned ≤ Body.Settles .message := by
  have le : settledMessage ≤ Grammar.message := fun _ _ h => h.1
  rintro ts a ⟨h, scans⟩
  have text : Body.member .message ts a := Grammar.messageMember_mono le ts a h
  rcases h with ((((h | h) | h) | h) | h) | h
  · exact Body.settles_of_spells text h scans (Grammar.spells_empty rfl)
  · obtain ⟨m, hm, rfl⟩ := map_iff.1 h
    exact settles_message (by decide) ⟨hm, scans⟩ (fun us h =>
      Grammar.message_le_messageMember _ _ (text_map h)) rfl
  · obtain ⟨e, he, rfl⟩ := map_iff.1 h
    exact settles_enum (by decide) ⟨he, scans⟩ (fun us h =>
      Grammar.enum_le_messageMember _ _ (text_map h)) rfl
  · exact Body.settles_of_spells text h scans (.map Grammar.spells_oneof)
  · exact Body.settles_of_spells text h scans (.map Grammar.spells_optionStatement)
  · exact Body.settles_of_spells text h scans (.map Grammar.spells_field)

/-- A message is rearranged by its body, in which the messages have been rearranged before. -/
theorem message_le_settled : Grammar.message ≤ settledMessage := by
  refine OrderHom.lfp_le ⟨Grammar.messageOf, Grammar.messageOf_mono⟩ fun ts m h => ⟨?_, ?_⟩
  · rw [← Grammar.messageOf_message]
    exact Grammar.messageOf_mono (fun _ _ h => h.1) ts m h
  · intro scans b holds
    obtain ⟨name, us, as, named, body, rfl, rfl⟩ := Grammar.block_of_scanned ⟨h, scans⟩
    have within := Body.reaches_block holds rfl named
      (many_mono settles_messageMember _ _ (many_scanned body))
    rwa [MessageBody.written_ofMembers] at within

theorem settles_statement : Grammar.statement.scanned ≤ Body.Settles .file := by
  rintro ts a ⟨h, scans⟩
  have text : Body.member .file ts a := h
  rcases h with ((((h | h) | h) | h) | h) | h
  · exact Body.settles_of_spells text h scans (Grammar.spells_empty rfl)
  · exact Body.settles_of_spells text h scans (.map Grammar.spells_importStatement)
  · exact Body.settles_of_spells text h scans Grammar.spells_packageStatement
  · exact Body.settles_of_spells text h scans (.map Grammar.spells_optionStatement)
  · obtain ⟨m, hm, rfl⟩ := map_iff.1 h
    exact settles_message (by decide) ⟨message_le_settled ts m hm, scans⟩ (fun us h =>
      Grammar.message_le_statement _ _ (text_map h)) rfl
  · obtain ⟨e, he, rfl⟩ := map_iff.1 h
    exact settles_enum (by decide) ⟨he, scans⟩ (fun us h =>
      Grammar.enum_le_statement _ _ (text_map h)) rfl

/-- Every text of a file can be rearranged into the written form of its tree. -/
theorem reaches_file {ts : List Token} {f : File} (h : Grammar.file.scanned ts f) :
    ReflTransGen Rearranges ts f.tokens := by
  obtain ⟨text, scans⟩ := h
  obtain ⟨ds, us, version, ss, hd, hs, few, rfl, rfl⟩ := Grammar.fileWhere_iff.1 text
  obtain ⟨front, back⟩ := List.forall_mem_append.1 scans
  have within := Body.reaches_written (.file hd)
    (many_mono settles_statement _ _ (many_scanned ⟨hs, back⟩))
  rw [List.append_nil, List.append_nil, Grammar.spells_syntaxDecl ds version ⟨hd, front⟩,
    File.written_ofStatements few] at within
  rw [Grammar.spells_syntaxDecl ds version ⟨hd, front⟩]
  exact within

/-! ## Sources with equal trees -/

/-- All of a source that is read as a file is tokens, which are a text of its tree. -/
theorem tokens_of_parseFile {source : String} {f : File} (h : parseFile source = .ok f) :
    ∃ w : List Lexeme, lex source = w.map .token ∧ Grammar.file.scanned (tokens w) f := by
  obtain ⟨w, rest, fronts⟩ := Node.Fronts.of_parse (n := .file) h
  obtain rfl : rest = [] := by
    have ended : seen (rest.map some) = some none := fronts.stops
    rcases rest with _ | ⟨l | span, rest⟩
    · rfl
    all_goals cases ended
  exact ⟨w, by simpa using fronts.items, fronts.text, scans_of_lex fronts.items⟩

/-- Texts that can be rearranged into each other stand for the same files. -/
theorem file_iff_of_rearranged {ts ts' : List Token} (h : EqvGen Rearranges ts ts') (f : File) :
    Grammar.file ts f ↔ Grammar.file ts' f := by
  induction h with
  | rel _ _ h => exact h.file_iff f
  | refl => exact Iff.rfl
  | symm _ _ _ ih => exact ih.symm
  | trans _ _ _ _ _ ih ih' => exact ih.trans ih'

/-- Two sources have equal trees just if the tokens of one can be rearranged into those of the
other: nothing of them is lost but how members of different sorts are mixed, and which empty ones
there are. -/
theorem trees_eq_iff_rearranged {source source' : String} {f f' : File}
    (h : parseFile source = .ok f) (h' : parseFile source' = .ok f') :
    ∃ w w' : List Lexeme, lex source = w.map .token ∧ lex source' = w'.map .token ∧
      (f = f' ↔ EqvGen Rearranges (tokens w) (tokens w')) := by
  obtain ⟨w, items, text⟩ := tokens_of_parseFile h
  obtain ⟨w', items', text'⟩ := tokens_of_parseFile h'
  refine ⟨w, w', items, items', ?_, fun rearranged => ?_⟩
  · rintro rfl
    have first := EqvGen.reflTransGen_le_eqvGen Rearranges _ _ (reaches_file text)
    have second := EqvGen.reflTransGen_le_eqvGen Rearranges _ _ (reaches_file text')
    exact first.trans _ _ _ (second.symm _ _)
  · exact @Node.phrase_unique .file _ _ _ ((file_iff_of_rearranged rearranged f).1 text.1) text'.1

/-- A message and an import change places, and so do the members of an enum in this message, where
an empty one is left out. Two imports do not change places. -/
theorem trees_eq_iff_rearranged_enum :
    (∃ w w' : List Lexeme,
      lex "syntax=\"proto3\";message A\x7benum E\x7b;x=0;option o=1;\x7d\x7dimport\"b\";" =
        w.map .token ∧
      lex "syntax=\"proto3\";import\"b\";message A\x7benum E\x7boption o=1;x=0;\x7d\x7d" =
        w'.map .token ∧
      EqvGen Rearranges (tokens w) (tokens w')) ∧
    ∃ w w' : List Lexeme, lex "syntax=\"proto3\";import\"a\";import\"b\";" = w.map .token ∧
      lex "syntax=\"proto3\";import\"b\";import\"a\";" = w'.map .token ∧
      ¬ EqvGen Rearranges (tokens w) (tokens w') := by
  let version : SyntaxDecl := ⟨⟨.stringLiteral, "\"proto3\""⟩⟩
  let name (text : String) : Token := ⟨.identifier, text⟩
  let number (text : String) : SignedNumber := ⟨none, ⟨.decimalLiteral, text⟩⟩
  let imported (path : String) : Import := ⟨⟨.stringLiteral, path⟩, none⟩
  constructor
  · let enum : Enum :=
      ⟨name "E", ⟨[⟨.plain ⟨[name "o"]⟩, .number (number "1")⟩], [⟨name "x", number "0", []⟩]⟩⟩
    let file : File :=
      ⟨version, none, [imported "\"b\""], [], [⟨name "A", ⟨[], [enum], [], [], []⟩⟩], []⟩
    have first :
        parseFile "syntax=\"proto3\";message A\x7benum E\x7b;x=0;option o=1;\x7d\x7dimport\"b\";" =
          .ok file := by decide +kernel
    have second :
        parseFile "syntax=\"proto3\";import\"b\";message A\x7benum E\x7boption o=1;x=0;\x7d\x7d" =
          .ok file := by decide +kernel
    obtain ⟨w, w', items, items', equal⟩ := trees_eq_iff_rearranged first second
    exact ⟨w, w', items, items', equal.1 rfl⟩
  · let file (paths : List String) : File := ⟨version, none, paths.map imported, [], [], []⟩
    have first : parseFile "syntax=\"proto3\";import\"a\";import\"b\";" =
      .ok (file ["\"a\"", "\"b\""]) := by decide +kernel
    have second : parseFile "syntax=\"proto3\";import\"b\";import\"a\";" =
      .ok (file ["\"b\"", "\"a\""]) := by decide +kernel
    have differ : file ["\"a\"", "\"b\""] ≠ file ["\"b\"", "\"a\""] := by decide +kernel
    obtain ⟨w, w', items, items', equal⟩ := trees_eq_iff_rearranged first second
    exact ⟨w, w', items, items', fun rearranged => differ (equal.2 rearranged)⟩

end ProtoSchema
