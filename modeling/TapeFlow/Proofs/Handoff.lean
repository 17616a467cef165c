import Mathlib.Algebra.Group.Nat.Defs
import TapeFlow.Codec.Graph
import TapeFlow.Codec.Options
import TapeFlow.Codec.Source
import TapeFlow.Proofs.JsonText

/-!
# Nothing is lost in JSON

What has a form in JSON is determined by its form, and so by its text.

* `Json.record?_ofMembers`, `Json.sparse?_ofMembers` — the fields of a record are
  read back in their order.
* `Json.list?_ofList`, `Json.orNull?_ofOption` — so are the items of a list, and
  something that may be missing.
* one `ofJson?_toJson` for each type, from the parts to the whole.
* `json_lossless` — every module, set of options, symbols, function, block,
  declaration, instruction, terminator, type, token and command is read back from
  its text.
-/

namespace TapeFlow

namespace Json

/-- What is determined by a value is read from every text that denotes the value. -/
theorem decode_of_denotes {α : Type} {value? : Json → Option α} {text : String} {j : Json} {a : α}
    (htext : Denotes text j) (h : value? j = some a) (what : String) :
    decode what value? text = .ok a := by
  rw [decode, parse?_of_denotes htext]
  simp [h]

/-- What is determined by its form is read back from its text. -/
theorem decode_render {α : Type} {value? : Json → Option α} {j : Json} {a : α}
    (h : value? j = some a) (what : String) (layout : Layout) :
    decode what value? (j.render layout) = .ok a :=
  decode_of_denotes (denotes_render layout j) h what

/-! ## Numbers -/

theorem natBelow?_ofInt {bound n : Nat} (h : n < bound) : (ofInt n).natBelow? bound = some n := by
  have hint : (ofInt n).int? = some (.ofNat n) := rfl
  simp [natBelow?, hint, h]

theorem uint32?_ofInt (n : UInt32) : (ofInt n.toNat).uint32? = some n := by
  have hlt : n.toNat < UInt32.size := n.toNat_lt
  rw [uint32?, natBelow?_ofInt hlt]
  simp

theorem uint64?_ofInt (n : UInt64) : (ofInt n.toNat).uint64? = some n := by
  have hlt : n.toNat < UInt64.size := n.toNat_lt
  rw [uint64?, natBelow?_ofInt hlt]
  simp

theorem int64?_ofInt (n : Int64) : (ofInt n.toInt).int64? = some n := by
  have hint : (ofInt n.toInt).int? = some n.toInt := rfl
  have hrange : -0x8000000000000000 ≤ n.toInt ∧ n.toInt < 0x8000000000000000 :=
    ⟨n.le_toInt, n.toInt_lt⟩
  rw [int64?, hint]
  simp [hrange]

/-! ## Records, lists and what may be missing -/

/-- Reading everything in a list, where each thing can be read. -/
theorem mapM_map_eq_some {α β γ : Type} {read? : α → Option β} {write : γ → α} {value : γ → β}
    {xs : List γ} (h : ∀ x ∈ xs, read? (write x) = some (value x)) :
    (xs.map write).mapM read? = some (xs.map value) := by
  induction xs with
  | nil => rfl
  | cons x xs ih =>
    have hx := h x List.mem_cons_self
    have hxs := ih fun y hy => h y (List.mem_cons_of_mem x hy)
    simp [List.mapM_cons, hx, hxs]

/-- A field that is given once is found. -/
theorem member?_of_mem {members : List (String × Json)} (hnodup : (members.map Prod.fst).Nodup)
    {m : String × Json} (hm : m ∈ members) :
    member? m.1 (members.map fun (name, value) => (some name, value)) = some (some m.2) := by
  have honly : (members.map fun (name, value) => (some name, value)).filter
      (fun n => n.1 == some m.1) = [(some m.1, m.2)] := by
    induction members with
    | nil => cases hm
    | cons n members ih =>
      rw [List.map_cons, List.nodup_cons] at hnodup
      obtain ⟨hfirst, hnodup⟩ := hnodup
      rcases List.mem_cons.1 hm with rfl | hm
      · have hnone : ∀ x ∈ members, ¬ x.1 = m.1 := fun x hx h =>
          hfirst (h ▸ List.mem_map_of_mem hx)
        simp only [List.map_cons, List.filter_cons, beq_self_eq_true, if_true, List.cons.injEq,
          true_and, List.filter_eq_nil_iff, List.mem_map]
        rintro _ ⟨x, hx, rfl⟩
        simpa using hnone x hx
      · have hne : ¬ n.1 = m.1 := fun h => hfirst (h ▸ List.mem_map_of_mem hm)
        simp [hne, ih hnodup hm]
  simp only [member?, honly]

/-- Where every field is given, and once, they are all found. -/
theorem members?_ofMembers {names : List String} {values : List Json} (hnodup : names.Nodup)
    (hlength : names.length = values.length) :
    members? names ((names.zip values).map fun (name, value) => (some name, value)) =
      some (values.map some) := by
  have hnames : (names.zip values).map Prod.fst = names := List.map_fst_zip hlength.le
  have hvalues : (names.zip values).map (fun m => some m.2) = values.map some := by
    have hsnd := congrArg (List.map some) (List.map_snd_zip hlength.ge)
    rwa [List.map_map] at hsnd
  have htexts : (((names.zip values).map fun (name, value) =>
      ((some name, value) : Option String × Json)).all fun m => m.1.isSome) = true := by
    simp
  have hnodup' : ((names.zip values).map Prod.fst).Nodup := by rw [hnames]; exact hnodup
  have hfound : ((names.zip values).map Prod.fst).mapM (fun name => member? name
      ((names.zip values).map fun (name, value) => (some name, value))) =
      some ((names.zip values).map fun m => some m.2) :=
    mapM_map_eq_some fun m hm => member?_of_mem hnodup' hm
  rw [hnames, hvalues] at hfound
  rw [members?, if_pos htexts, hfound]

/-- The fields of a record are read back. -/
theorem record?_ofMembers {names : List String} {values : List Json} {j : Json}
    {absent : String → Option Json} (hj : j = ofMembers (names.zip values))
    (hnodup : names.Nodup) (hlength : names.length = values.length) :
    record? names absent j = some values := by
  subst hj
  have hzip : names.zip (values.map some) =
      (names.zip values).map fun m => (m.1, some m.2) := by
    rw [List.zip_map_right]
    rfl
  simp only [ofMembers, record?, members?_ofMembers hnodup hlength, Option.bind_eq_bind,
    Option.bind_some, hzip]
  have hgiven : ((names.zip values).map fun m => (m.1, some m.2)).mapM
      (fun m => m.2.or (absent m.1)) = some ((names.zip values).map Prod.snd) :=
    mapM_map_eq_some fun m _ => rfl
  rw [hgiven, List.map_snd_zip hlength.ge]

/-- So are those of a record in which any may be left out. -/
theorem sparse?_ofMembers {names : List String} {values : List Json} {j : Json}
    (hj : j = ofMembers (names.zip values)) (hnodup : names.Nodup)
    (hlength : names.length = values.length) : sparse? names j = some (values.map some) := by
  subst hj
  exact members?_ofMembers hnodup hlength

theorem list?_ofList {α : Type} {toJson : α → Json} {ofJson? : Json → Option α} {xs : List α}
    (h : ∀ x ∈ xs, ofJson? (toJson x) = some x) : (ofList toJson xs).list? ofJson? = some xs := by
  have hread : (xs.map toJson).mapM ofJson? = some (xs.map id) := mapM_map_eq_some h
  rwa [List.map_id] at hread

theorem orNull?_ofOption {α : Type} {toJson : α → Json} {ofJson? : Json → Option α}
    (h : ∀ a, ofJson? (toJson a) = some a) (hnull : ∀ a, toJson a ≠ .null) (x : Option α) :
    (ofOption toJson x).orNull? ofJson? = some x := by
  cases x with
  | none => rfl
  | some a =>
    rw [ofOption, orNull?]
    · rw [h a, Option.map_some]
    · exact hnull a

@[simp] theorem variant?_ofVariant (name : String) (value : Json) :
    (ofVariant name value).variant? = some (name, some value) := rfl

end Json

/-! ## Commands, tokens and types -/

theorem Command.ofJson?_toJson (c : Command) : Command.ofJson? c.toJson = some c := by
  cases c <;> rfl

theorem Token.ofJson?_toJson {t : Token} (h : t.offset < 2 ^ 64) :
    Token.ofJson? t.toJson = some t := by
  have hfields : t.toJson.record? ["kind", "offset"] (fun _ => none) =
      some [t.command.toJson, .ofInt t.offset] := Json.record?_ofMembers rfl (by decide) rfl
  have hoffset : (Json.ofInt t.offset).natBelow? UInt64.size = some t.offset :=
    Json.natBelow?_ofInt h
  simp [Token.ofJson?, hfields, Command.ofJson?_toJson, hoffset]

theorem Ty.ofJson?_toJson (ty : Ty) : Ty.ofJson? ty.toJson = some ty := by
  cases ty <;> rfl

theorem Reg.ofJson?_toJson (r : Reg) : Reg.ofJson? r.toJson = some r := by
  rw [Reg.ofJson?, Reg.toJson, Json.uint32?_ofInt]
  rfl

theorem BlockId.ofJson?_toJson (id : BlockId) : BlockId.ofJson? id.toJson = some id := by
  rw [BlockId.ofJson?, BlockId.toJson, Json.uint32?_ofInt]
  rfl

theorem Reg.orNull?_ofOption (r : Option Reg) :
    (Json.ofOption Reg.toJson r).orNull? Reg.ofJson? = some r :=
  Json.orNull?_ofOption Reg.ofJson?_toJson nofun r

/-! ## Options and symbols -/

theorem Symbols.ofJson?_toJson (s : Symbols) : Symbols.ofJson? s.toJson = some s := by
  have hfields : s.toJson.sparse? ["read_byte", "write_byte", "fill"] =
      some ([.ofString s.readByte, .ofString s.writeByte, .ofString s.fill].map some) :=
    Json.sparse?_ofMembers rfl (by decide) rfl
  simp [Symbols.ofJson?, hfields, Json.fieldOr, Json.ofString, Json.text?]

theorem Options.ofJson?_toJson (o : Options) : Options.ofJson? o.toJson = some o := by
  have hfields : o.toJson.sparse?
      ["cell_count", "module_name", "entry_name", "symbols", "verify"] =
      some ([.ofInt o.cellCount.toNat, .ofString o.moduleName, .ofString o.entryName,
        o.symbols.toJson, .bool o.verify].map some) :=
    Json.sparse?_ofMembers rfl (by decide) rfl
  simp [Options.ofJson?, hfields, Json.fieldOr, Json.ofString, Json.text?, Json.bool?,
    Json.uint64?_ofInt, Symbols.ofJson?_toJson]

/-! ## Modules -/

theorem Instruction.ofJson?_toJson (i : Instruction) : Instruction.ofJson? i.toJson = some i := by
  have hregs : ∀ args : List Reg, (Json.ofList Reg.toJson args).list? Reg.ofJson? = some args :=
    fun args => Json.list?_ofList fun r _ => Reg.ofJson?_toJson r
  cases i <;> simp [Instruction.ofJson?, Instruction.toJson, Instruction.ofParts?,
    Reg.ofJson?_toJson, Ty.ofJson?_toJson, Json.int64?_ofInt, Json.uint64?_ofInt,
    Reg.orNull?_ofOption, hregs, Json.ofString, Json.text?]

theorem Terminator.ofJson?_toJson (t : Terminator) : Terminator.ofJson? t.toJson = some t := by
  cases t with
  | br target => simp [Terminator.ofJson?, Terminator.toJson, BlockId.ofJson?_toJson]
  | condBr cond thenBlock elseBlock =>
    have hfields : (Json.ofMembers [("cond", cond.toJson), ("then_block", thenBlock.toJson),
        ("else_block", elseBlock.toJson)]).record? ["cond", "then_block", "else_block"]
        (fun _ => none) = some [cond.toJson, thenBlock.toJson, elseBlock.toJson] :=
      Json.record?_ofMembers rfl (by decide) rfl
    simp [Terminator.ofJson?, Terminator.toJson, hfields, Reg.ofJson?_toJson,
      BlockId.ofJson?_toJson]
  | ret value => simp [Terminator.ofJson?, Terminator.toJson, Reg.orNull?_ofOption]

theorem Block.ofJson?_toJson (b : Block) : Block.ofJson? b.toJson = some b := by
  have hfields : b.toJson.record? ["id", "label", "instructions", "terminator"] absentField =
      some [b.id.toJson, .ofString b.label,
        .ofList Instruction.toJson b.instructions.toList,
        .ofOption Terminator.toJson b.terminator] :=
    Json.record?_ofMembers rfl (by decide) rfl
  have hcode : (Json.ofList Instruction.toJson b.instructions.toList).list? Instruction.ofJson? =
      some b.instructions.toList := Json.list?_ofList fun i _ => i.ofJson?_toJson
  have hend : (Json.ofOption Terminator.toJson b.terminator).orNull? Terminator.ofJson? =
      some b.terminator := by
    refine Json.orNull?_ofOption Terminator.ofJson?_toJson (fun t => ?_) b.terminator
    cases t <;> nofun
  simp [Block.ofJson?, hfields, BlockId.ofJson?_toJson, Json.ofString, Json.text?, hcode, hend]

theorem Declaration.ofJson?_toJson (d : Declaration) : Declaration.ofJson? d.toJson = some d := by
  have hfields : d.toJson.record? ["name", "params", "ret"] (fun _ => none) =
      some [.ofString d.name, .ofList Ty.toJson d.params, d.ret.toJson] :=
    Json.record?_ofMembers rfl (by decide) rfl
  have hparams : (Json.ofList Ty.toJson d.params).list? Ty.ofJson? = some d.params :=
    Json.list?_ofList fun ty _ => ty.ofJson?_toJson
  simp [Declaration.ofJson?, hfields, Json.ofString, Json.text?, hparams, Ty.ofJson?_toJson]

theorem Function.ofJson?_toJson (f : Function) : Function.ofJson? f.toJson = some f := by
  have hfields : f.toJson.record? ["name", "ret", "blocks", "entry"] (fun _ => none) =
      some [.ofString f.name, f.ret.toJson, .ofList Block.toJson f.blocks.toList,
        f.entry.toJson] :=
    Json.record?_ofMembers rfl (by decide) rfl
  have hblocks : (Json.ofList Block.toJson f.blocks.toList).list? Block.ofJson? =
      some f.blocks.toList := Json.list?_ofList fun b _ => b.ofJson?_toJson
  simp [Function.ofJson?, hfields, Json.ofString, Json.text?, Ty.ofJson?_toJson, hblocks,
    BlockId.ofJson?_toJson]

theorem Module.ofJson?_toJson (m : Module) : Module.ofJson? m.toJson = some m := by
  have hfields : m.toJson.record? ["name", "externs", "functions"] (fun _ => none) =
      some [.ofString m.name, .ofList Declaration.toJson m.declarations,
        .ofList Function.toJson m.functions] :=
    Json.record?_ofMembers rfl (by decide) rfl
  have hdeclarations : (Json.ofList Declaration.toJson m.declarations).list?
      Declaration.ofJson? = some m.declarations := Json.list?_ofList fun d _ => d.ofJson?_toJson
  have hfunctions : (Json.ofList Function.toJson m.functions).list? Function.ofJson? =
      some m.functions := Json.list?_ofList fun f _ => f.ofJson?_toJson
  simp [Module.ofJson?, hfields, Json.ofString, Json.text?, hdeclarations, hfunctions]

/-! ## Texts -/

/-- A module is read back from its text, and everything else that has a form in
JSON from its text on one line.  The offset of a token has to be a 64-bit word. -/
theorem json_lossless (what : String) :
    (∀ m : Module, Module.parse m.jsonText = .ok m) ∧
    (∀ o : Options, Options.parse (o.toJson.render .compact) = .ok o) ∧
    (∀ s : Symbols, Symbols.parse (s.toJson.render .compact) = .ok s) ∧
    (∀ f : Function, Json.decode what Function.ofJson? (f.toJson.render .compact) = .ok f) ∧
    (∀ b : Block, Json.decode what Block.ofJson? (b.toJson.render .compact) = .ok b) ∧
    (∀ d : Declaration,
      Json.decode what Declaration.ofJson? (d.toJson.render .compact) = .ok d) ∧
    (∀ i : Instruction,
      Json.decode what Instruction.ofJson? (i.toJson.render .compact) = .ok i) ∧
    (∀ t : Terminator, Json.decode what Terminator.ofJson? (t.toJson.render .compact) = .ok t) ∧
    (∀ ty : Ty, Json.decode what Ty.ofJson? (ty.toJson.render .compact) = .ok ty) ∧
    (∀ t : Token, t.offset < 2 ^ 64 →
      Json.decode what Token.ofJson? (t.toJson.render .compact) = .ok t) ∧
    ∀ c : Command, Json.decode what Command.ofJson? (c.toJson.render .compact) = .ok c :=
  ⟨fun m => Json.decode_render m.ofJson?_toJson _ _,
    fun o => Json.decode_render o.ofJson?_toJson _ _,
    fun s => Json.decode_render s.ofJson?_toJson _ _,
    fun f => Json.decode_render f.ofJson?_toJson _ _,
    fun b => Json.decode_render b.ofJson?_toJson _ _,
    fun d => Json.decode_render d.ofJson?_toJson _ _,
    fun i => Json.decode_render i.ofJson?_toJson _ _,
    fun t => Json.decode_render t.ofJson?_toJson _ _,
    fun ty => Json.decode_render ty.ofJson?_toJson _ _,
    fun _ ht => Json.decode_render (Token.ofJson?_toJson ht) _ _,
    fun c => Json.decode_render c.ofJson?_toJson _ _⟩

/-- A token at the last offset there is, and a module whose name needs every kind of
escape and a character beyond the first plane. -/
theorem json_lossless_extremes :
    (⟨.loopClose, 18446744073709551615⟩ : Token).offset < 2 ^ 64 ∧
      Json.decode "a token" Token.ofJson?
        ((⟨.loopClose, 18446744073709551615⟩ : Token).toJson.render .compact) =
          .ok ⟨.loopClose, 18446744073709551615⟩ ∧
      Module.parse (⟨"\"\\/\n\x01\x7f\u00e9😀", [], []⟩ : Module).jsonText =
        .ok ⟨"\"\\/\n\x01\x7f\u00e9😀", [], []⟩ := by
  obtain ⟨hmodule, -, -, -, -, -, -, -, -, htoken, -⟩ := json_lossless "a token"
  have hoffset : (⟨.loopClose, 18446744073709551615⟩ : Token).offset < 2 ^ 64 := by decide
  exact ⟨hoffset, htoken _ hoffset, hmodule _⟩

example : (⟨.increment, 10⟩ : Token).toJson.render .compact =
    "\x7b\"kind\":\"Incr\",\"offset\":10\x7d" := by
  cbv

end TapeFlow
