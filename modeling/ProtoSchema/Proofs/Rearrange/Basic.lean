import ProtoSchema.Proofs.Acceptance.Exact
import ProtoSchema.Proofs.Phrase.Grammar

/-! # Rearranged bodies

In a file and in the bodies of messages and enums, members of several sorts may be mixed. Two
members of different sorts that stand side by side can change places, and an empty one can be left
out; this changes nothing about the members of any one sort, so the tree stays the same. -/

namespace ProtoSchema

/-- The sorts of members and statements that a tree keeps apart. -/
inductive MemberSort where
  | imported
  | package
  | option
  | message
  | enum
  | field
  | oneof
deriving DecidableEq, Repr

def EnumMember.sort : EnumMember → Option MemberSort
  | .empty => none
  | .option _ => some .option
  | .field _ => some .field

def MessageMember.sort : MessageMember → Option MemberSort
  | .empty => none
  | .field _ => some .field
  | .enum _ => some .enum
  | .message _ => some .message
  | .oneof _ => some .oneof
  | .option _ => some .option

def Statement.sort : Statement → Option MemberSort
  | .empty => none
  | .imported _ => some .imported
  | .package _ _ => some .package
  | .option _ => some .option
  | .message _ => some .message
  | .enum _ => some .enum

/-- The bodies in which members of several sorts stand. -/
inductive Body where
  | file
  | message
  | enum
deriving DecidableEq, Repr

namespace Body

abbrev Member : Body → Type
  | .file => Statement
  | .message => MessageMember
  | .enum => EnumMember

def member : (b : Body) → Phrase b.Member
  | .file => Grammar.statement
  | .message => Grammar.messageMember Grammar.message
  | .enum => Grammar.enumMember

def sort : (b : Body) → b.Member → Option MemberSort
  | .file => Statement.sort
  | .message => MessageMember.sort
  | .enum => EnumMember.sort

/-- The keyword in front of a block with such a body. -/
def keyword? : Body → Option Keyword
  | .file => none
  | .message => some .messageKw
  | .enum => some .enumKw

end Body

open Phrase

/-- Where a body stands in a file, at any depth: behind the first tokens and in front of the second
ones. -/
inductive Inside : Body → List Token → List Token → Prop
  | file {ts version} (h : Grammar.syntaxDecl ts version) : Inside .file ts []
  | block {outer b pre post us vs hs} {as bs : List outer.Member} {word name brace}
    (place : Inside outer pre post) (holds : outer ≠ .enum) (front : many outer.member us as)
    (keyword : b.keyword? = some word) (head : Grammar.blockHead word hs name)
    (closing : brace.kind = .rightBrace) (back : many outer.member vs bs) :
    Inside b (pre ++ (us ++ hs)) (brace :: (vs ++ post))

/-- A change within a body: an empty member is left out, or two members of different sorts, one
right behind the other, change places. -/
inductive Body.Change (b : Body) : List Token → List Token → Prop
  | empty {us vs as bs} (front : many b.member us as) (back : many b.member vs bs) :
    Change b (us ++ .ofKind .semicolon :: vs) (us ++ vs)
  | swap {us ts ts' vs as a a' bs} (front : many b.member us as) (first : b.member ts a)
    (second : b.member ts' a') (differ : b.sort a ≠ b.sort a') (back : many b.member vs bs) :
    Change b (us ++ (ts ++ (ts' ++ vs))) (us ++ (ts' ++ (ts ++ vs)))

/-- A change within some body of a file. -/
inductive Rearranges : List Token → List Token → Prop
  | inside {b pre post us vs} (place : Inside b pre post) (change : b.Change us vs) :
    Rearranges (pre ++ (us ++ post)) (pre ++ (vs ++ post))

/-! ## The tree stays the same -/

/-- That two lists have the same members of each sort, in the same order. -/
def Body.SameMembers (b : Body) (as bs : List b.Member) : Prop :=
  ∀ s, (as.filter fun a => b.sort a = some s) = bs.filter fun a => b.sort a = some s

namespace Body

variable {b : Body} {us vs : List Token} {as bs : List b.Member}

/-- What is taken of one sort is the same. -/
theorem SameMembers.filterMap {β : Type} {g : b.Member → Option β} (h : b.SameMembers as bs)
    (s : MemberSort) (hg : ∀ a, b.sort a ≠ some s → g a = none) :
    as.filterMap g = bs.filterMap g := by
  have only (cs : List b.Member) :
      (cs.filter fun a => b.sort a = some s).filterMap g = cs.filterMap g := by
    rw [List.filterMap_filter]
    congr 1
    funext a
    by_cases ha : b.sort a = some s
    · simp [ha]
    · simp [ha, hg a ha]
  rw [← only as, h s, only bs]

/-- An empty member is a semicolon. -/
theorem exists_empty (b : Body) : ∃ a, b.member [.ofKind .semicolon] a ∧ b.sort a = none := by
  cases b with
  | file => exact ⟨.empty, Grammar.empty_le_statement _ _ (Grammar.text_empty rfl _), rfl⟩
  | message => exact ⟨.empty, Grammar.empty_le_messageMember _ _ (Grammar.text_empty rfl _), rfl⟩
  | enum => exact ⟨.empty, Grammar.empty_le_enumMember _ _ (Grammar.text_empty rfl _), rfl⟩

theorem Change.sameMembers (h : b.Change us vs) :
    ∃ as bs, many b.member us as ∧ many b.member vs bs ∧ b.SameMembers as bs := by
  cases h with
  | @empty us vs as bs front back =>
    obtain ⟨a, ha, none⟩ := b.exists_empty
    refine ⟨as ++ a :: bs, as ++ bs, many_append front (.cons ha back), many_append front back,
      fun s => ?_⟩
    simp [none]
  | @swap us ts ts' vs as a a' bs front first second differ back =>
    refine ⟨as ++ a :: a' :: bs, as ++ a' :: a :: bs,
      many_append front (.cons first (.cons second back)),
      many_append front (.cons second (.cons first back)), fun s => ?_⟩
    rw [List.filter_append, List.filter_append]
    congr 1
    by_cases ha : b.sort a = some s
    · have ha' : b.sort a' ≠ some s := fun h => differ (ha.trans h.symm)
      simp [ha, ha']
    · by_cases ha' : b.sort a' = some s <;> simp [ha, ha']

end Body

theorem EnumBody.ofMembers_congr {as bs : List EnumMember} (h : Body.SameMembers .enum as bs) :
    EnumBody.ofMembers as = .ofMembers bs := by
  rw [ofMembers, ofMembers, h.filterMap .option fun a ha => ?_, h.filterMap .field fun a ha => ?_]
  all_goals cases a <;> first | rfl | exact absurd rfl ha

theorem MessageBody.ofMembers_congr {as bs : List MessageMember}
    (h : Body.SameMembers .message as bs) :
    MessageBody.ofMembers as = .ofMembers bs := by
  rw [ofMembers, ofMembers, h.filterMap .field fun a ha => ?_, h.filterMap .enum fun a ha => ?_,
    h.filterMap .message fun a ha => ?_, h.filterMap .oneof fun a ha => ?_,
    h.filterMap .option fun a ha => ?_]
  all_goals cases a <;> first | rfl | exact absurd rfl ha

theorem Body.SameMembers.filterMap_package {as bs : List Statement}
    (h : Body.SameMembers .file as bs) :
    as.filterMap Statement.package? = bs.filterMap Statement.package? :=
  h.filterMap .package fun a ha => by cases a <;> first | rfl | exact absurd rfl ha

theorem File.ofStatements_congr {as bs : List Statement} (h : Body.SameMembers .file as bs)
    (version : SyntaxDecl) : File.ofStatements version as = .ofStatements version bs := by
  rw [ofStatements, ofStatements, ← List.head?_filterMap, ← List.head?_filterMap,
    h.filterMap_package, h.filterMap .imported fun a ha => ?_,
    h.filterMap .option fun a ha => ?_, h.filterMap .message fun a ha => ?_,
    h.filterMap .enum fun a ha => ?_]
  all_goals cases a <;> first | rfl | exact absurd rfl ha

/-- A block is a member of the body around it, and the same one with the same members in it. -/
theorem Body.exists_block {outer b : Body} {word : Keyword} {hs : List Token} {name brace : Token}
    (holds : outer ≠ .enum) (keyword : b.keyword? = some word)
    (head : Grammar.blockHead word hs name) (closing : brace.kind = .rightBrace)
    (as : List b.Member) :
    ∃ m, ∀ us bs, many b.member us bs → b.SameMembers as bs →
      outer.member (hs ++ (us ++ [brace])) m := by
  cases b with
  | file => cases keyword
  | message =>
    cases keyword
    have message (us : List Token) (bs : List MessageMember)
        (h : many (Body.member .message) us bs) (same : Body.SameMembers .message as bs) :
        Grammar.message (hs ++ (us ++ [brace])) ⟨name, .ofMembers as⟩ := by
      rw [← Grammar.messageOf_message, MessageBody.ofMembers_congr same]
      exact Grammar.block_iff.2 ⟨hs, us, brace, name, bs, head, h, closing, rfl, rfl⟩
    cases outer with
    | file => exact ⟨.message ⟨name, .ofMembers as⟩, fun us bs h same =>
        Grammar.message_le_statement _ _ (text_map (message us bs h same))⟩
    | message => exact ⟨.message ⟨name, .ofMembers as⟩, fun us bs h same =>
        Grammar.message_le_messageMember _ _ (text_map (message us bs h same))⟩
    | enum => exact absurd rfl holds
  | enum =>
    cases keyword
    have enum (us : List Token) (bs : List EnumMember)
        (h : many (Body.member .enum) us bs) (same : Body.SameMembers .enum as bs) :
        Grammar.enum (hs ++ (us ++ [brace])) ⟨name, .ofMembers as⟩ := by
      rw [EnumBody.ofMembers_congr same]
      exact Grammar.block_iff.2 ⟨hs, us, brace, name, bs, head, h, closing, rfl, rfl⟩
    cases outer with
    | file => exact ⟨.enum ⟨name, .ofMembers as⟩, fun us bs h same =>
        Grammar.enum_le_statement _ _ (text_map (enum us bs h same))⟩
    | message => exact ⟨.enum ⟨name, .ofMembers as⟩, fun us bs h same =>
        Grammar.enum_le_messageMember _ _ (text_map (enum us bs h same))⟩
    | enum => exact absurd rfl holds

/-- The same members of each sort in a body make the same members of each sort in the file. -/
theorem Inside.sameStatements {b : Body} {pre post us vs : List Token} {as bs : List b.Member}
    (place : Inside b pre post) (h : many b.member us as) (h' : many b.member vs bs)
    (same : b.SameMembers as bs) : ∃ ds version us' vs' ss ss', Grammar.syntaxDecl ds version ∧
      pre ++ (us ++ post) = ds ++ us' ∧ pre ++ (vs ++ post) = ds ++ vs' ∧
      many Grammar.statement us' ss ∧ many Grammar.statement vs' ss' ∧
      Body.SameMembers .file ss ss' := by
  -- from the body outwards: the block around it is one member of the next, the same in both texts
  induction place generalizing us vs with
  | @file ts version hd => exact ⟨ts, version, us, vs, as, bs, hd, by simp, by simp, h, h', same⟩
  | @block outer b pre post xs ys hs as' bs' word name brace place holds front keyword head
      closing back ih =>
    obtain ⟨m, member⟩ := Body.exists_block holds keyword head closing as
    have text := many_append front (.cons (member us as h fun _ => rfl) back)
    have text' := many_append front (.cons (member vs bs h' same) back)
    have result := ih text text' fun _ => rfl
    simpa using result

/-- What a file was read from decides how many of its statements are package statements. -/
theorem file_of_statements {ts ds us : List Token} {f : File} {version : SyntaxDecl}
    {ss : List Statement} (h : Grammar.file ts f) (hd : Grammar.syntaxDecl ds version)
    (hs : many Grammar.statement us ss) (whole : ts = ds ++ us) :
    Grammar.packages ss ≤ 1 ∧ f = .ofStatements version ss := by
  let w : List Lexeme := ts.map fun u => ⟨u, .at 0⟩
  have tokens_w : tokens w = ts := by simp [w, tokens, Function.comp_def]
  have ahead : (Cursor.ofAnswers (answers w)).ahead = answers w ++ [] := by simp
  have text : Grammar.fileWhere (· = ss) (tokens w) (.ofStatements version ss) :=
    Grammar.fileWhere_iff.2 ⟨ds, us, version, ss, hd, hs, rfl, rfl, tokens_w.trans whole⟩
  have text' : Grammar.file (tokens w) f := tokens_w.symm ▸ h
  obtain ⟨_, few', ⟨-, c, run, -⟩ | ⟨many', -⟩⟩ := Parser.file_run text' rfl ahead
  · obtain ⟨_, rfl, ⟨few, c', run', -⟩ | ⟨-, first, second, c', run'⟩⟩ :=
      Parser.file_run text rfl ahead
    · rw [run] at run'
      exact ⟨few, (EStateM.Result.ok.inj run').1⟩
    · rw [run] at run'
      cases run'
  · exact absurd few' (Nat.not_le.2 many')

/-- A rearranged text stands for the same tree. -/
theorem Rearranges.file_iff {ts ts' : List Token} (h : Rearranges ts ts') (f : File) :
    Grammar.file ts f ↔ Grammar.file ts' f := by
  cases h with
  | inside place change =>
    obtain ⟨as, bs, text, text', same⟩ := change.sameMembers
    obtain ⟨ds, version, us, vs, ss, ss', hd, whole, whole', hs, hs', same'⟩ :=
      place.sameStatements text text' same
    have packages : Grammar.packages ss = Grammar.packages ss' :=
      congrArg List.length same'.filterMap_package
    have tree := File.ofStatements_congr same' version
    have file {us : List Token} {ss : List Statement} (hs : many Grammar.statement us ss)
        (few : Grammar.packages ss ≤ 1) : Grammar.file (ds ++ us) (.ofStatements version ss) :=
      Grammar.fileWhere_iff.2 ⟨ds, us, version, ss, hd, hs, few, rfl, rfl⟩
    constructor
    · intro h
      obtain ⟨few, rfl⟩ := file_of_statements h hd hs whole
      rw [whole', tree]
      exact file hs' (packages ▸ few)
    · intro h
      obtain ⟨few, rfl⟩ := file_of_statements h hd hs' whole'
      rw [whole, ← tree]
      exact file hs (packages ▸ few)

end ProtoSchema
