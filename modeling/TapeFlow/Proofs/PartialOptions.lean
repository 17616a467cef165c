import Mathlib.Data.List.Forall2
import Mathlib.Data.List.Nodup
import Mathlib.Data.List.Perm.Basic
import TapeFlow.Proofs.Handoff
import TapeFlow.Proofs.Symbols

/-!
# Options that are given in part

A set of options can be given by some of its fields, in any order and among members that mean
nothing here; what is left out has its default value.  The symbols inside can be given in part
in the same way.  What cannot be is a field given twice.

* `Json.Gives` — the members of an object are those of some fields, each once, and others.
* `Json.members?_of_gives`, `Json.members?_of_repeats` — what is found in such an object, and
  that nothing is where a field is repeated.
* `Options.only` — what is left of options when only some fields count.
* `Options.ofJson?_of_gives` — an object that gives some fields stands for these.
* `Options.parse_partial` — and so does every text that denotes it.
-/

namespace TapeFlow

namespace Json

/-! ## Members in any order -/

section

variable {F : Type} {key : F → String} {value : F → Json} {given : List F}
  {members : List (Option String × Json)}

/-- The members are those of the given fields, each once, and any number of others with names
that belong to no field, in any order. -/
def Gives (key : F → String) (value : F → Json) (given : List F)
    (members : List (Option String × Json)) : Prop :=
  given.Nodup ∧ ∃ others : List (String × Json), (∀ m ∈ others, ∀ f, m.1 ≠ key f) ∧
    members.Perm (given.map (fun f => (some (key f), value f)) ++
      others.map fun m => (some m.1, m.2))

/-- Some field is given more than once. -/
def Repeats (key : F → String) (members : List (Option String × Json)) : Prop :=
  ∃ f, 2 ≤ members.countP fun m => m.1 == some (key f)

theorem Gives.all_isSome (h : Gives key value given members) :
    (members.all fun m => m.1.isSome) = true := by
  obtain ⟨-, others, -, hperm⟩ := h
  rw [List.all_eq_true]
  intro m hm
  rcases List.mem_append.1 (hperm.mem_iff.1 hm) with hm | hm
  · obtain ⟨f, -, rfl⟩ := List.mem_map.1 hm
    rfl
  · obtain ⟨n, -, rfl⟩ := List.mem_map.1 hm
    rfl

/-- Of all the members, one has the name of a field that is given, and none that of another. -/
theorem Gives.filter_eq [DecidableEq F] (hkey : Function.Injective key)
    (h : Gives key value given members) (f : F) :
    members.filter (fun m => m.1 == some (key f)) =
      if f ∈ given then [(some (key f), value f)] else [] := by
  obtain ⟨hnodup, others, hothers, hperm⟩ := h
  have hnone : (others.map fun m => (some m.1, m.2)).filter
      (fun m => m.1 == some (key f)) = [] := by
    rw [List.filter_eq_nil_iff]
    intro m hm
    obtain ⟨n, hn, rfl⟩ := List.mem_map.1 hm
    simpa using hothers n hn f
  have hone : (given.map fun g => (some (key g), value g)).filter (fun m => m.1 == some (key f)) =
      if f ∈ given then [(some (key f), value f)] else [] := by
    have hsame : ((fun m : Option String × Json => m.1 == some (key f)) ∘
        fun g => (some (key g), value g)) = fun g => g == f := by
      funext g
      simp [hkey.eq_iff, beq_eq_decide]
    rw [List.filter_map, hsame, List.filter_beq]
    by_cases hf : f ∈ given
    · rw [if_pos hf, List.count_eq_one_of_mem hnodup hf]
      rfl
    · rw [if_neg hf, List.count_eq_zero_of_not_mem hf]
      rfl
  have hfilter := hperm.filter fun m => m.1 == some (key f)
  rw [List.filter_append, hnone, List.append_nil, hone] at hfilter
  by_cases hf : f ∈ given
  · rw [if_pos hf] at hfilter ⊢
    exact List.perm_singleton.1 hfilter
  · rw [if_neg hf] at hfilter ⊢
    exact hfilter.eq_nil

theorem Gives.member?_eq [DecidableEq F] (hkey : Function.Injective key)
    (h : Gives key value given members) (f : F) :
    member? (key f) members = some (if f ∈ given then some (value f) else none) := by
  rw [member?, h.filter_eq hkey f]
  by_cases hf : f ∈ given <;> simp [hf]

/-- What is found: the values of the fields that are given, and nothing for the others. -/
theorem members?_of_gives [DecidableEq F] (hkey : Function.Injective key)
    (h : Gives key value given members) (fields : List F) :
    members? (fields.map key) members =
      some (fields.map fun f => if f ∈ given then some (value f) else none) := by
  rw [members?, if_pos h.all_isSome]
  exact mapM_map_eq_some fun f _ => h.member?_eq hkey f

theorem member?_of_repeated {name : String}
    (h : 2 ≤ members.countP fun m => m.1 == some name) : member? name members = none := by
  rw [List.countP_eq_length_filter] at h
  rw [member?]
  cases hfilter : members.filter fun m => m.1 == some name with
  | nil => simp [hfilter] at h
  | cons m rest =>
    cases rest with
    | nil => simp [hfilter] at h
    | cons m' rest => rfl

/-- What is read from a list is what is read from its members. -/
theorem forall₂_of_mapM {α β : Type} {read? : α → Option β} {xs : List α} {ys : List β}
    (h : xs.mapM read? = some ys) : List.Forall₂ (fun x y => read? x = some y) xs ys := by
  induction xs generalizing ys with
  | nil =>
    cases h
    exact .nil
  | cons x xs ih =>
    rw [List.mapM_cons] at h
    obtain ⟨y, hy, h⟩ := Option.bind_eq_some_iff.1 h
    obtain ⟨ys', hys, h⟩ := Option.bind_eq_some_iff.1 h
    cases h
    exact .cons hy (ih hys)

theorem forall₂_of_members? {names : List String} {values : List (Option Json)}
    (h : members? names members = some values) :
    List.Forall₂ (fun name v => member? name members = some v) names values := by
  rw [members?] at h
  split at h
  · exact forall₂_of_mapM h
  · cases h

theorem members?_of_repeats (h : Repeats key members) {fields : List F} (hall : ∀ f, f ∈ fields) :
    members? (fields.map key) members = none := by
  obtain ⟨f, hf⟩ := h
  rw [Option.eq_none_iff_forall_ne_some]
  intro values hvalues
  have hfound := forall₂_of_members? hvalues
  obtain ⟨i, hi, hname⟩ := List.getElem_of_mem (List.mem_map_of_mem (f := key) (hall f))
  have hi' : i < values.length := hfound.length_eq ▸ hi
  have hvalue := hfound.get hi hi'
  rw [List.get_eq_getElem, hname, member?_of_repeated hf] at hvalue
  cases hvalue

/-- Nothing but a member with the right name is found. -/
theorem value_of_mem {name : String} {v : Json} (hmem : (some name, v) ∈ members)
    {found : Option Json} (h : member? name members = some found) : found = some v := by
  have hfilter : (some name, v) ∈ members.filter fun m => m.1 == some name :=
    List.mem_filter.2 ⟨hmem, beq_self_eq_true _⟩
  rw [member?] at h
  cases hmembers : members.filter fun m => m.1 == some name with
  | nil =>
    rw [hmembers] at hfilter
    cases hfilter
  | cons m rest =>
    rw [hmembers] at h hfilter
    cases rest with
    | nil =>
      cases List.mem_singleton.1 hfilter
      exact (Option.some.inj h).symm
    | cons m' rest => cases h

/-- A field that may be left out. -/
theorem fieldOr_ite {α : Type} {value? : Json → Option α} {j : Json} {a : α}
    (h : value? j = some a) (default : α) (p : Prop) [Decidable p] :
    fieldOr default value? (if p then some j else none) = some (if p then a else default) := by
  by_cases hp : p <;> simp [hp, fieldOr, h]

theorem decode_refused {α : Type} {value? : Json → Option α} {text : String} {j : Json}
    (htext : Denotes text j) (h : value? j = none) (what : String) :
    ∃ detail, decode what value? text = .error (.malformed detail) := by
  rw [decode, parse?_of_denotes htext]
  simp [h]

end

end Json

/-! ## Symbols -/

/-- The name under which the symbol of a capability is given. -/
def Capability.key : Capability → String
  | readByte => "read_byte"
  | writeByte => "write_byte"
  | fill => "fill"

theorem Capability.key_injective : Function.Injective key := by
  intro c d h
  cases c <;> cases d <;> simp [key] at h ⊢

namespace Symbols

/-- Symbols of which only some count. -/
def only (s : Symbols) (named : List Capability) : Symbols where
  readByte := if .readByte ∈ named then s.readByte else ({} : Symbols).readByte
  writeByte := if .writeByte ∈ named then s.writeByte else ({} : Symbols).writeByte
  fill := if .fill ∈ named then s.fill else ({} : Symbols).fill

/-- The members give these symbols, and no others. -/
def GivenBy (s : Symbols) (named : List Capability) (members : List (Option String × Json)) :
    Prop :=
  Json.Gives Capability.key (fun c => .ofString (s.nameOf c)) named members

theorem ofJson?_of_givenBy {s : Symbols} {named : List Capability}
    {members : List (Option String × Json)} (h : s.GivenBy named members) :
    ofJson? (.object members) = some (s.only named) := by
  have hfields := Json.members?_of_gives Capability.key_injective h order
  have htext : ∀ t, Json.text? (.ofString t) = some t := fun _ => rfl
  simp only [order, List.map_cons, List.map_nil, Capability.key, nameOf] at hfields
  simp [ofJson?, Json.sparse?, hfields, Json.fieldOr_ite (htext _), only]

theorem ofJson?_of_repeats {members : List (Option String × Json)}
    (h : Json.Repeats Capability.key members) : ofJson? (.object members) = none := by
  have hfields : Json.members? ["read_byte", "write_byte", "fill"] members = none :=
    Json.members?_of_repeats h mem_order
  simp [ofJson?, Json.sparse?, hfields]

end Symbols

/-! ## Options -/

namespace Options

/-- The fields. -/
inductive Field where
  /-- The number of cells. -/
  | cellCount
  /-- The name of the module. -/
  | moduleName
  /-- The name of the function. -/
  | entryName
  /-- The symbols. -/
  | symbols
  /-- Whether the result is checked. -/
  | verify
  deriving DecidableEq

/-- The fields in their order. -/
def fields : List Field := [.cellCount, .moduleName, .entryName, .symbols, .verify]

theorem mem_fields (f : Field) : f ∈ fields := by
  cases f <;> decide

/-- The name under which a field is given. -/
def Field.key : Field → String
  | cellCount => "cell_count"
  | moduleName => "module_name"
  | entryName => "entry_name"
  | symbols => "symbols"
  | verify => "verify"

theorem Field.key_injective : Function.Injective key := by
  intro f g h
  cases f <;> cases g <;> simp [key] at h ⊢

/-- Options of which only some fields count, and only some of the symbols. -/
def only (o : Options) (given : List Field) (named : List Capability) : Options where
  cellCount := if .cellCount ∈ given then o.cellCount else ({} : Options).cellCount
  moduleName := if .moduleName ∈ given then o.moduleName else ({} : Options).moduleName
  entryName := if .entryName ∈ given then o.entryName else ({} : Options).entryName
  symbols := if .symbols ∈ given then o.symbols.only named else ({} : Options).symbols
  verify := if .verify ∈ given then o.verify else ({} : Options).verify

/-- The value of a field as JSON, the symbols being given by some members. -/
def fieldJson (o : Options) (inner : List (Option String × Json)) : Field → Json
  | .cellCount => .ofInt o.cellCount.toNat
  | .moduleName => .ofString o.moduleName
  | .entryName => .ofString o.entryName
  | .symbols => .object inner
  | .verify => .bool o.verify

/-- The members give these fields of the options and these of the symbols, and no others. -/
def GivenBy (o : Options) (given : List Field) (named : List Capability)
    (members : List (Option String × Json)) : Prop :=
  ∃ inner, o.symbols.GivenBy named inner ∧ Json.Gives Field.key (o.fieldJson inner) given members

variable {o : Options} {given : List Field} {named : List Capability}
  {members : List (Option String × Json)}

theorem ofJson?_of_givenBy (h : o.GivenBy given named members) :
    ofJson? (.object members) = some (o.only given named) := by
  obtain ⟨inner, hsymbols, hmembers⟩ := h
  have hfields := Json.members?_of_gives Field.key_injective hmembers fields
  have htext : ∀ t, Json.text? (.ofString t) = some t := fun _ => rfl
  have hbool : ∀ b, Json.bool? (.bool b) = some b := fun _ => rfl
  simp only [fields, List.map_cons, List.map_nil, Field.key, fieldJson] at hfields
  simp [ofJson?, Json.sparse?, hfields, Json.fieldOr_ite (htext _), Json.fieldOr_ite (hbool _),
    Json.fieldOr_ite (Json.uint64?_ofInt _),
    Json.fieldOr_ite (Symbols.ofJson?_of_givenBy hsymbols), only]

theorem ofJson?_of_repeats (h : Json.Repeats Field.key members) :
    ofJson? (.object members) = none := by
  have hfields : Json.members? ["cell_count", "module_name", "entry_name", "symbols", "verify"]
      members = none := Json.members?_of_repeats h mem_fields
  simp [ofJson?, Json.sparse?, hfields]

/-- Symbols that cannot be read spoil the options they are given in. -/
theorem ofJson?_of_mem_symbols {j : Json} (hmem : (some "symbols", j) ∈ members)
    (hj : Symbols.ofJson? j = none) : ofJson? (.object members) = none := by
  rw [ofJson?, Json.sparse?]
  cases hfields : Json.members? ["cell_count", "module_name", "entry_name", "symbols", "verify"]
      members with
  | none => rfl
  | some values =>
    -- the five values, of which the fourth one is that of the symbols
    obtain _ | ⟨-, _ | ⟨-, _ | ⟨-, _ | ⟨hfound, _ | ⟨-, _ | _⟩⟩⟩⟩⟩ :=
      Json.forall₂_of_members? hfields
    cases Json.value_of_mem hmem hfound
    simp [Json.fieldOr, hj]

/-- A text that gives some of the fields stands for the options that have these and are the
default ones otherwise, in whatever order and among whatever else the fields are given.  A text
that gives a field twice, or a symbol in its symbols, stands for nothing. -/
theorem parse_partial {text : String} (htext : Json.Denotes text (.object members)) :
    (∀ (o : Options) (given : List Field) (named : List Capability),
      o.GivenBy given named members → parse text = .ok (o.only given named)) ∧
    ((Json.Repeats Field.key members ∨ ∃ inner, (some Field.symbols.key, .object inner) ∈ members ∧
        Json.Repeats Capability.key inner) →
      ∃ detail, parse text = .error (.malformed detail)) := by
  constructor
  · intro o given named hgiven
    exact Json.decode_of_denotes htext (ofJson?_of_givenBy hgiven) "options"
  · rintro (hrepeats | ⟨inner, hmem, hrepeats⟩)
    · exact Json.decode_refused htext (ofJson?_of_repeats hrepeats) "options"
    · have hsymbols := Symbols.ofJson?_of_repeats hrepeats
      exact Json.decode_refused htext (ofJson?_of_mem_symbols hmem hsymbols) "options"

/-- Three fields and one symbol, last first and among members that mean nothing here; and a field
given twice. -/
theorem parse_partial_mixed :
    let note : Json := .array [.number none, .object [(none, .string none)], .null]
    let inner : List (Option String × Json) := [(some "", note), (some "fill", .ofString "memset")]
    let members : List (Option String × Json) := [(some "note", note), (some "verify", .bool false),
      (some "symbols", .object inner), (some "cell_count", .ofInt 64)]
    let twice : List (Option String × Json) := [(some "verify", .bool true), (some "note", note),
      (some "verify", .bool true)]
    parse (Json.render .pretty (.object members)) =
        .ok { cellCount := 64, symbols := { fill := "memset" }, verify := false } ∧
      ∃ detail, parse (Json.render .compact (.object twice)) = .error (.malformed detail) := by
  intro note inner members twice
  let o : Options := ⟨64, "", "", ⟨"", "", "memset"⟩, false⟩
  have hinner : o.symbols.GivenBy [.fill] inner := by
    refine ⟨by decide, [("", note)], ?_, List.Perm.swap _ _ []⟩
    intro m hm f
    cases List.mem_singleton.1 hm
    cases f <;> decide
  have hmembers : o.GivenBy [.verify, .symbols, .cellCount] [.fill] members := by
    have hperm : ([(some "note", note)] ++ members.tail).Perm
        (members.tail ++ [(some "note", note)]) := List.perm_append_comm
    refine ⟨inner, hinner, by decide, [("note", note)], ?_, hperm⟩
    intro m hm f
    cases List.mem_singleton.1 hm
    cases f <;> decide
  have hok := (parse_partial (Json.denotes_render .pretty (.object members))).1 o _ _ hmembers
  have hrepeats : Json.Repeats Field.key twice := ⟨.verify, by decide⟩
  refine ⟨hok.trans ?_,
    (parse_partial (Json.denotes_render .compact (.object twice))).2 (.inl hrepeats)⟩
  rfl

end Options

end TapeFlow
