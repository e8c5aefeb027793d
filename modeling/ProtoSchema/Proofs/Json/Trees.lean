import ProtoSchema.Proofs.Json.Codec

/-! # Trees from their spellings

The writer and the reader of each sort of trees make a codec, so that a value is read as a tree just
where it is a spelling of what is written for the tree. Messages are read to a depth, and the
induction is on it. -/

namespace ProtoSchema
open Json

variable {n : Nat}

theorem TokenKind.nodup_names : (all.map name).Nodup := by decide +kernel

theorem TokenKind.ofName?_eq_some_iff {name : String} {k : TokenKind} :
    ofName? name = some k ↔ name = k.name := by
  have name_eq {k' : TokenKind} (h : ofName? name = some k') : name = k'.name := by
    unfold ofName? at h
    have := List.find?_some h
    exact (beq_iff_eq.1 this).symm
  refine ⟨name_eq, fun h => ?_⟩
  cases found : ofName? name with
  | none => exact absurd (beq_iff_eq.2 h.symm) (List.find?_eq_none.1 found k (mem_all k))
  | some k' =>
    have same := List.inj_on_of_nodup_map nodup_names (mem_all k') (mem_all k)
    rw [same ((name_eq found).symm.trans h)]

theorem TokenKind.codec : Codec n .kind toJson ofJson? where
  read_iff {v} _ k := by
    unfold ofJson? toJson
    split <;> simp_all [ofName?_eq_some_iff]
  self _ := ⟨.string _, .kind _⟩

theorem Token.codec : Codec n .token toJson ofJson? :=
  .record (.cons TokenKind.codec (.last .string))
    ⟨fun (kind, text) => ⟨kind, text⟩, fun t => (t.kind, t.text), fun _ => rfl, fun _ => rfl⟩
    (by decide) (fun _ => rfl) (fun _ => rfl)
    (by rintro (_ | ⟨_, _ | ⟨_, _ | _⟩⟩) <;> simp [Option.bind_assoc])

theorem FullIdent.codec : Codec n .fullIdent toJson ofJson? :=
  .record (.last (.list Token.codec))
    ⟨FullIdent.mk, FullIdent.segments, fun _ => rfl, fun _ => rfl⟩
    (by decide) (fun _ => rfl) (fun _ => rfl)
    (by rintro (_ | ⟨_, _ | _⟩) <;> simp)

theorem SignedNumber.codec : Codec n .signedNumber toJson ofJson? :=
  .record (.cons (.nullable Token.codec nofun) (.last Token.codec))
    ⟨fun (sign, number) => ⟨sign, number⟩, fun x => (x.sign, x.number), fun _ => rfl, fun _ => rfl⟩
    (by decide) (fun _ => rfl) (fun _ => rfl)
    (by rintro (_ | ⟨_, _ | ⟨_, _ | _⟩⟩) <;> simp [Option.bind_assoc])

theorem Constant.codec : Codec n .constant toJson ofJson? :=
  .variant (fun _ => rfl)
    (by
      intro name w hw x
      split <;> cases x <;> simp_all [toJson, Option.bind_eq_some_iff]
      · exact Codec.read_iff Token.codec hw _
      · exact Codec.read_iff FullIdent.codec hw _
      · exact Codec.read_iff SignedNumber.codec hw _)
    (by
      rintro (t | f | x)
      · exact ⟨"String", .token, t.toJson, by simp, rfl, Codec.self Token.codec⟩
      · exact ⟨"Identifier", .fullIdent, f.toJson, by simp, rfl, Codec.self FullIdent.codec⟩
      · exact ⟨"Number", .signedNumber, x.toJson, by simp, rfl, Codec.self SignedNumber.codec⟩)

theorem OptionName.codec_extension :
    Codec n .extension
      (fun p =>
        .object [("prefix", FullIdent.toJson p.1), ("suffix", ofOption FullIdent.toJson p.2)])
      (fun v => (v.openRecord [.required "prefix", .optional "suffix"]).bind
        (pair? FullIdent.ofJson? (single? (nullable? FullIdent.ofJson?)))) :=
  .record (.cons FullIdent.codec (.last (.nullable FullIdent.codec nofun))) (.refl _)
    (by decide) (fun _ => rfl) (fun _ => rfl) (fun _ => by simp)

theorem OptionName.codec : Codec n .optionName toJson ofJson? :=
  .variant (fun _ => rfl)
    (by
      intro name w hw x
      split <;> cases x <;> simp_all [toJson, Option.bind_eq_some_iff]
      · exact Codec.read_iff FullIdent.codec hw _
      · rintro (_ | ⟨_, _ | ⟨_, _ | _⟩⟩) - <;> simp [Option.bind_eq_some_iff]
      · rw [← Codec.read_iff OptionName.codec_extension hw (_, _), Option.bind_eq_some_iff]
        refine exists_congr fun vals => and_congr_right fun _ => ?_
        rcases vals with _ | ⟨_, _ | ⟨_, _ | _⟩⟩ <;> simp [Option.bind_eq_some_iff])
    (by
      rintro (f | ⟨f, rest⟩)
      · exact ⟨"Name", .fullIdent, f.toJson, by simp, rfl, Codec.self FullIdent.codec⟩
      · exact ⟨"Prefix", .extension, _, by simp, rfl,
          Codec.self (x := (f, rest)) OptionName.codec_extension⟩)

theorem OptionSetting.codec : Codec n .optionSetting toJson ofJson? :=
  .record (.cons OptionName.codec (.last Constant.codec))
    ⟨fun (name, value) => ⟨name, value⟩, fun o => (o.name, o.value), fun _ => rfl, fun _ => rfl⟩
    (by decide) (fun _ => rfl) (fun _ => rfl)
    (by rintro (_ | ⟨_, _ | ⟨_, _ | _⟩⟩) <;> simp [Option.bind_assoc])

theorem FieldType.codec : Codec n .fieldType toJson ofJson? :=
  .variant (fun _ => rfl)
    (by
      intro name w hw x
      split <;> cases x <;> simp_all [toJson, Option.bind_eq_some_iff]
      · exact Codec.read_iff Token.codec hw _
      · exact Codec.read_iff FullIdent.codec hw _
      · exact Codec.read_iff FullIdent.codec hw _)
    (by
      rintro (t | f | f)
      · exact ⟨"Scalar", .token, t.toJson, by simp, rfl, Codec.self Token.codec⟩
      · exact ⟨"Named", .fullIdent, f.toJson, by simp, rfl, Codec.self FullIdent.codec⟩
      · exact ⟨"Absolute", .fullIdent, f.toJson, by simp, rfl, Codec.self FullIdent.codec⟩)

theorem Field.codec : Codec n .field toJson ofJson? :=
  .record
    (.cons .bool (.cons FieldType.codec (.cons Token.codec (.cons Token.codec
      (.last (.list OptionSetting.codec))))))
    ⟨fun (repeated, type, name, number, options) => ⟨repeated, type, name, number, options⟩,
      fun f => (f.repeated, f.type, f.name, f.number, f.options), fun _ => rfl, fun _ => rfl⟩
    (by decide) (fun _ => rfl) (fun _ => rfl)
    (by
      rintro (_ | ⟨_, _ | ⟨_, _ | ⟨_, _ | ⟨_, _ | ⟨_, _ | _⟩⟩⟩⟩⟩) <;> simp [Option.bind_assoc])

theorem EnumField.codec : Codec n .enumField toJson ofJson? :=
  .record (.cons Token.codec (.cons SignedNumber.codec (.last (.list OptionSetting.codec))))
    ⟨fun (name, number, options) => ⟨name, number, options⟩, fun f => (f.name, f.number, f.options),
      fun _ => rfl, fun _ => rfl⟩
    (by decide) (fun _ => rfl) (fun _ => rfl)
    (by rintro (_ | ⟨_, _ | ⟨_, _ | ⟨_, _ | _⟩⟩⟩) <;> simp [Option.bind_assoc])

theorem EnumBody.codec : Codec n .enumBody toJson ofJson? :=
  .record (.cons (.list OptionSetting.codec) (.last (.list EnumField.codec)))
    ⟨fun (options, fields) => ⟨options, fields⟩, fun b => (b.options, b.fields),
      fun _ => rfl, fun _ => rfl⟩
    (by decide) (fun _ => rfl) (fun _ => rfl)
    (by rintro (_ | ⟨_, _ | ⟨_, _ | _⟩⟩) <;> simp [Option.bind_assoc])

theorem Enum.codec : Codec n .enum toJson ofJson? :=
  .record (.cons Token.codec (.last EnumBody.codec))
    ⟨fun (name, body) => ⟨name, body⟩, fun e => (e.name, e.body), fun _ => rfl, fun _ => rfl⟩
    (by decide) (fun _ => rfl) (fun _ => rfl)
    (by rintro (_ | ⟨_, _ | ⟨_, _ | _⟩⟩) <;> simp [Option.bind_assoc])

theorem Oneof.codec : Codec n .oneof toJson ofJson? :=
  .record (.cons Token.codec (.last (.list Field.codec)))
    ⟨fun (name, fields) => ⟨name, fields⟩, fun o => (o.name, o.fields), fun _ => rfl, fun _ => rfl⟩
    (by decide) (fun _ => rfl) (fun _ => rfl)
    (by rintro (_ | ⟨_, _ | ⟨_, _ | _⟩⟩) <;> simp [Option.bind_assoc])

theorem MessageBody.codec_of {message : Json → Option Message}
    (h : Codec n .message Message.toJson message) :
    Codec n .messageBody toJson (ofJsonWith? message) :=
  .record
    (.cons (.list Field.codec) (.cons (.list Enum.codec) (.cons (.list (h.of_le (Nat.sub_le n 1)))
      (.cons (.list Oneof.codec) (.last (.list OptionSetting.codec))))))
    ⟨fun (fields, enums, messages, oneofs, options) => ⟨fields, enums, messages, oneofs, options⟩,
      fun b => (b.fields, b.enums, b.messages, b.oneofs, b.options), fun _ => rfl,
      fun ⟨_, _, _, _, _⟩ => rfl⟩
    (by decide) (fun _ => by simp [toJson, Message.toJsonList_eq_map, ofList]) (fun _ => rfl)
    (by
      rintro (_ | ⟨_, _ | ⟨_, _ | ⟨_, _ | ⟨_, _ | ⟨_, _ | _⟩⟩⟩⟩⟩) <;> simp [Option.bind_assoc])

/-- Messages that are a level deeper are read through their bodies. -/
theorem Message.codec_succ (ih : Codec n .message toJson (ofJsonWithin? n)) :
    Codec (n + 1) .ofMessage toJson (ofJsonWithin? (n + 1)) :=
  .record (.cons Token.codec (.last (MessageBody.codec_of ih)))
    ⟨fun (name, body) => ⟨name, body⟩, fun m => (m.name, m.body), fun _ => rfl, fun ⟨_, _⟩ => rfl⟩
    (by decide) (fun _ => by simp [toJson]) (fun _ => rfl)
    (by rintro (_ | ⟨_, _ | ⟨_, _ | _⟩⟩) <;> simp [Option.bind_assoc])

theorem Message.codec_within : Codec n .message toJson (ofJsonWithin? n) := by
  refine .message ?_
  induction n with
  | zero =>
    refine ⟨fun {v} hv m => ?_, fun {m} deep => ?_⟩
    · have shallow := hv.depth_le
      constructor
      · simp [ofJsonWithin?]
      · intro spelled
        have := spelled.depth_pos
        omega
    · cases m
      simp [toJson, depth] at deep
  | succ n ih => exact Message.codec_succ (.message ih)

theorem Message.codec : Codec n .message toJson ofJson? where
  read_iff {v} hv m := Codec.read_iff Message.codec_within ⟨hv.unique, Nat.le_refl v.depth⟩ m
  self := Codec.self Message.codec_within

theorem MessageBody.codec : Codec n .messageBody toJson ofJson? := codec_of Message.codec

theorem SyntaxDecl.codec : Codec n .syntaxDecl toJson ofJson? :=
  .record (.last Token.codec) ⟨SyntaxDecl.mk, SyntaxDecl.value, fun _ => rfl, fun _ => rfl⟩
    (by decide) (fun _ => rfl) (fun _ => rfl)
    (by rintro (_ | ⟨_, _ | _⟩) <;> simp)

theorem Import.codec : Codec n .imported toJson ofJson? :=
  .record (.cons Token.codec (.last (.nullable Token.codec nofun)))
    ⟨fun (path, modifier) => ⟨path, modifier⟩, fun i => (i.path, i.modifier),
      fun _ => rfl, fun _ => rfl⟩
    (by decide) (fun _ => rfl) (fun _ => rfl)
    (by rintro (_ | ⟨_, _ | ⟨_, _ | _⟩⟩) <;> simp [Option.bind_assoc])

theorem Package.codec : Codec n .package toJson ofJson? :=
  .record (.last FullIdent.codec) ⟨Package.mk, Package.name, fun _ => rfl, fun _ => rfl⟩
    (by decide) (fun _ => rfl) (fun _ => rfl)
    (by rintro (_ | ⟨_, _ | _⟩) <;> simp)

theorem File.codec : Codec n .file toJson ofJson? :=
  .record
    (.cons SyntaxDecl.codec (.cons (.nullable Package.codec nofun) (.cons (.list Import.codec)
      (.cons (.list OptionSetting.codec)
        (.cons (.list Message.codec) (.last (.list Enum.codec)))))))
    ⟨fun (version, package, imports, options, messages, enums) =>
        ⟨version, package, imports, options, messages, enums⟩,
      fun f => (f.syntaxDecl, f.package, f.imports, f.options, f.messages, f.enums),
      fun _ => rfl, fun _ => rfl⟩
    (by decide) (fun _ => rfl) (fun _ => rfl)
    (by
      rintro (_ | ⟨_, _ | ⟨_, _ | ⟨_, _ | ⟨_, _ | ⟨_, _ | ⟨_, _ | _⟩⟩⟩⟩⟩⟩) <;>
        simp [Option.bind_assoc])

theorem Node.codec : ∀ node : Node, Codec n node.shape node.encode node.decode
  | .file => File.codec
  | .syntaxDecl => SyntaxDecl.codec
  | .imported => Import.codec
  | .package => Package.codec
  | .option => OptionSetting.codec
  | .fullIdent => FullIdent.codec
  | .constant => Constant.codec
  | .signedNumber => SignedNumber.codec
  | .field => Field.codec
  | .enumField => EnumField.codec
  | .enum => Enum.codec
  | .oneof => Oneof.codec
  | .message => Message.codec

theorem Part.codec : ∀ p : Part, Codec n p.shape p.encode p.decode
  | .node a => a.codec
  | .token => Token.codec
  | .tokenKind => TokenKind.codec
  | .optionName => OptionName.codec
  | .fieldType => FieldType.codec
  | .enumBody => EnumBody.codec
  | .messageBody => MessageBody.codec

/-- A value is read as a tree just where it is a spelling of what is written for it. -/
theorem Part.decode_iff_respells (p : Part) :
    (∀ (v : Json) (x : p.Tree), v.UniqueKeys →
      (p.decode v = some x ↔ Respells p.shape (p.encode x) v)) ∧
      (∀ x : p.Tree, (p.encode x).UniqueKeys ∧ p.decode (p.encode x) = some x) ∧
      ∀ (v : Json) (x : p.Tree), p.decode v = some x →
        p.decode (p.encode x) = p.decode v ∧
          (p.decode (p.encode x)).map p.encode = some (p.encode x) := by
  have exact (v : Json) (x : p.Tree) (unique : v.UniqueKeys) :
      p.decode v = some x ↔ Respells p.shape (p.encode x) v :=
    p.codec.read_iff ⟨unique, Nat.le_refl v.depth⟩ x
  have inverse (x : p.Tree) : (p.encode x).UniqueKeys ∧ p.decode (p.encode x) = some x := by
    obtain ⟨unique, spelled⟩ := p.codec.self (Nat.le_refl (p.encode x).depth)
    exact ⟨unique, (exact _ x unique).2 spelled⟩
  refine ⟨exact, inverse, fun v x read => ?_⟩
  rw [(inverse x).2, read]
  exact ⟨rfl, rfl⟩

/-- A message that holds another one and an option, with rows, an unknown key, a number whose sign
is left out and a kind that is the key of a `null`. -/
def Message.shuffled : Json :=
  .object [("def", .array [.array [], .array [],
      .array [.array [.array [.string "Identifier", .string "N"],
        .object [("options", .array []), ("enums", .array []), ("fields", .array []),
          ("messages", .array []), ("one_ofs", .array [])]]],
      .array [],
      .array [.array [
        .object [("Name", .array [.array [.array [.string "Identifier", .string "level"]]])],
        .object [("Number",
          .object [("number", .array [.string "DecimalLiteral", .string "1"])])]]]]),
    ("note", .null),
    ("name", .object [("text", .string "M"), ("kind", .object [("Identifier", .null)])])]

theorem Part.decode_iff_respells_message :
    let inner : Message := ⟨⟨.identifier, "N"⟩, ⟨[], [], [], [], []⟩⟩
    let level : OptionSetting :=
      ⟨.plain ⟨[⟨.identifier, "level"⟩]⟩, .number ⟨none, ⟨.decimalLiteral, "1"⟩⟩⟩
    let message : Message := ⟨⟨.identifier, "M"⟩, ⟨[], [], [inner], [], [level]⟩⟩
    Message.shuffled.UniqueKeys ∧ Message.ofJson? Message.shuffled = some message ∧
      Respells .message message.toJson Message.shuffled ∧
      Message.ofJson? message.toJson = Message.ofJson? Message.shuffled := by
  intro inner level message
  have unique : Message.shuffled.UniqueKeys := by simp [Message.shuffled]
  have read : Message.ofJson? Message.shuffled = some message := by decide +kernel
  obtain ⟨exact, -, canonical⟩ := Part.decode_iff_respells (.node .message)
  exact ⟨unique, read, (exact _ message unique).1 read, (canonical Message.shuffled message read).1⟩

end ProtoSchema
