import TapeFlow.Proofs.Footprint

/-!
# Loads after a store

What a store leaves in memory, as loads see it.  A store of any width is read back through
the same address, byte for byte and as a whole, and a load that goes elsewhere cannot tell
that there was a store.

* `Memory.loaded` — what a load gives or how it faults, as a function of memory alone;
  `Exec.loads_loaded` — every load through an address does just that.
* `Span.Apart` — two ranges of bytes without a byte in common.
* `Memory.loaded_write_self`, `Memory.loaded_write_byte`, `Memory.loaded_write_apart` — a load
  of what was written, of one byte of it, and of other bytes.
* `Exec.store_loads` — hence the same of a store and the loads after it, on any machine.
-/

namespace TapeFlow

/-! ## Widths -/

theorem Ty.scalarSize?_eq_size {ty : Ty} {size : UInt64} (h : ty.scalarSize? = some size) :
    size = ty.size := by
  cases ty with
  | i1 | i8 | i32 | i64 => exact (Option.some.inj h).symm
  | ptr | void => cases h

theorem Ty.size_le_eight (ty : Ty) : ty.size.toNat ≤ 8 := by
  cases ty <;> decide

/-- The bytes that a type has in memory hold all the bits that count at the type. -/
theorem Ty.truncate_littleEndian {ty : Ty} (h : ty.scalarSize?.isSome = true) (word : UInt64) :
    ty.truncate (ofLittleEndian (littleEndian ty.size.toNat word)) = ty.truncate word := by
  have hbytes := toNat_ofLittleEndian_littleEndian ty.size_le_eight word
  generalize ofLittleEndian (littleEndian ty.size.toNat word) = low at hbytes
  rw [← UInt64.toNat_inj]
  cases ty with
  | i1 | i8 | i32 =>
    simp only [Ty.size] at hbytes
    simp [Ty.truncate, hbytes]
  | i64 =>
    have hword := word.toNat_lt
    simp only [Ty.size] at hbytes
    simp only [Ty.truncate]
    rw [hbytes]
    exact Nat.mod_eq_of_lt hword
  | ptr | void => cases h

theorem getElem?_littleEndian {n j : Nat} (hj : j < n) (word : UInt64) :
    (littleEndian n word)[j]? = some (UInt8.ofNat (word.toNat / 256 ^ j)) := by
  induction n generalizing j word with
  | zero => cases hj
  | succ n ih =>
    cases j with
    | zero =>
      rw [littleEndian, List.getElem?_cons_zero, Nat.pow_zero, Nat.div_one]
      rfl
    | succ j =>
      have h256 : (256 : UInt64).toNat = 256 := rfl
      rw [littleEndian, List.getElem?_cons_succ, ih (by omega), UInt64.toNat_div, h256,
        Nat.div_div_eq_div_mul, ← Nat.pow_succ']

/-! ## Ranges of bytes -/

/-- The spans have no byte in common: they belong to different allocations, or the one ends
before the other begins.  Ends are computed without wrapping. -/
def Span.Apart (a b : Span) : Prop :=
  a.alloc ≠ b.alloc ∨ a.offset.toNat + a.length.toNat ≤ b.offset.toNat ∨
    b.offset.toNat + b.length.toNat ≤ a.offset.toNat

theorem Span.Apart.not_covers {a b : Span} (h : a.Apart b) {index : Nat}
    (hlow : b.offset.toNat ≤ index) (hhigh : index < b.offset.toNat + b.length.toNat) :
    ¬ a.Covers b.alloc index := by
  rintro ⟨halloc, hlow', hhigh'⟩
  rcases h with h | h | h
  · exact h halloc
  · omega
  · omega

namespace Memory

variable {memory : Memory} {alloc offset : Nat}

/-- What is written is read. -/
theorem read_write_self {size : Nat} (bytes : List UInt8)
    (hsize : memory.size? alloc = some size) (hroom : offset + bytes.length ≤ size) :
    (memory.write alloc offset bytes).read alloc offset bytes.length = bytes := by
  refine List.ext_getElem? fun j => ?_
  rw [getElem?_read]
  by_cases hj : j < bytes.length
  · rw [if_pos hj, byte?_write_of_lt bytes hsize hroom hj]
  · rw [if_neg hj, List.getElem?_eq_none (Nat.le_of_not_lt hj)]

/-- Outside of a span in which they differ, memories read the same. -/
theorem SameOutside.read_eq {span other : Span} {old new : Memory} (h : old.SameOutside span new)
    (hapart : span.Apart other) :
    new.read other.alloc other.offset.toNat other.length.toNat =
      old.read other.alloc other.offset.toNat other.length.toNat := by
  refine List.ext_getElem? fun j => ?_
  rw [getElem?_read, getElem?_read]
  by_cases hj : j < other.length.toNat
  · rw [if_pos hj, if_pos hj]
    exact h.bytes _ _ (hapart.not_covers (Nat.le_add_right _ _) (Nat.add_lt_add_left hj _))
  · rw [if_neg hj, if_neg hj]

/-! ## What a load gives -/

/-- What a load of some bytes at a type gives, or how it faults. -/
def loaded (memory : Memory) (ty : Ty) (span : Span) : Except Fault UInt64 :=
  match memory.size? span.alloc with
  | none => .error (.dangling span.alloc)
  | some size =>
    if span.offset.toNat + span.length.toNat ≤ size then
      .ok (ty.truncate
        (ofLittleEndian (memory.read span.alloc span.offset.toNat span.length.toNat)))
    else
      .error (.outOfRange span.length.toNat span.offset.toNat span.alloc size)

theorem loaded_of_inside {span : Span} (h : span.Inside memory) (ty : Ty) :
    memory.loaded ty span = .ok (ty.truncate
      (ofLittleEndian (memory.read span.alloc span.offset.toNat span.length.toNat))) := by
  obtain ⟨size, hsize, hle⟩ := h
  simp only [loaded, hsize, if_pos hle]

/-- A load of other bytes gives what it gave before. -/
theorem loaded_write_apart {span other : Span} {old new : Memory} (h : old.SameOutside span new)
    (hapart : span.Apart other) (ty : Ty) : new.loaded ty other = old.loaded ty other := by
  unfold loaded
  rw [h.size, h.read_eq hapart]

variable {word : UInt64} {ty : Ty} {span : Span}

/-- A load of the bytes of a word gives the word, as far as its type goes. -/
theorem loaded_write_self (hscalar : ty.scalarSize?.isSome = true) (hlength : span.length = ty.size)
    (hinside : span.Inside memory) :
    (memory.write span.alloc span.offset.toNat (littleEndian ty.size.toNat word)).loaded ty span =
      .ok (ty.truncate word) := by
  obtain ⟨size, hsize, hle⟩ := hinside
  have hbytes : (littleEndian ty.size.toNat word).length = span.length.toNat := by
    rw [length_littleEndian, hlength]
  have hsame := memory.sameOutside_write span hbytes
  have hread := read_write_self (littleEndian ty.size.toNat word) hsize
    (by rw [hbytes]; exact hle)
  rw [hbytes] at hread
  rw [loaded_of_inside ⟨size, (hsame.size _).trans hsize, hle⟩, hread,
    Ty.truncate_littleEndian hscalar]

/-- A load of one byte gives the byte that is there. -/
theorem loaded_byte {alloc : Nat} {offset : UInt64} {b : UInt8}
    (h : memory.byte? alloc offset.toNat = some b) :
    memory.loaded .i8 ⟨alloc, offset, Ty.i8.size⟩ = .ok b.toUInt64 := by
  have hone : Ty.i8.size.toNat = 1 := rfl
  have hinside : Span.Inside ⟨alloc, offset, Ty.i8.size⟩ memory := by
    obtain ⟨a, ha, hb⟩ := Option.bind_eq_some_iff.1 h
    have hlt := (Array.getElem?_eq_some_iff.1 hb).1
    exact ⟨a.size, by rw [size?, ha, Option.map_some], hlt⟩
  have hread : memory.read alloc offset.toNat 1 = [b] := by
    refine List.ext_getElem? fun k => ?_
    rw [getElem?_read]
    cases k with
    | zero => rw [if_pos Nat.one_pos, Nat.add_zero, h, List.getElem?_cons_zero]
    | succ k => rw [if_neg (by omega), List.getElem?_cons_succ, List.getElem?_nil]
  rw [loaded_of_inside hinside, hone, hread, ofLittleEndian_singleton, truncate_i8_toUInt64]

/-- A load of one byte of a word gives that byte, counted from the lowest. -/
theorem loaded_write_byte (hlength : span.length = ty.size) (hinside : span.Inside memory)
    {other : UInt64} {j : Nat} (hj : j < ty.size.toNat)
    (hother : other.toNat = span.offset.toNat + j) :
    (memory.write span.alloc span.offset.toNat (littleEndian ty.size.toNat word)).loaded .i8
      ⟨span.alloc, other, Ty.i8.size⟩ = .ok (UInt64.ofNat (word.toNat / 256 ^ j % 256)) := by
  obtain ⟨size, hsize, hle⟩ := hinside
  have hbyte := byte?_write_of_lt (j := j) (littleEndian ty.size.toNat word) hsize
    (by rw [length_littleEndian, ← hlength]; exact hle) (by rw [length_littleEndian]; exact hj)
  rw [getElem?_littleEndian hj, ← hother] at hbyte
  have hsmall : word.toNat / 256 ^ j % 256 < 2 ^ 64 :=
    Nat.lt_trans (Nat.mod_lt _ (by decide)) (by decide)
  rw [loaded_byte hbyte, Except.ok.injEq, ← UInt64.toNat_inj, UInt64.toNat_ofNat_of_lt' hsmall]
  rfl

end Memory

/-! ## Loads and stores of the machine -/

/-- A load through a register gives a word and changes nothing else, or it faults and changes
nothing, whichever register the word is for. -/
def Machine.Loads (symbols : Symbols) (m : Machine) (ty : Ty) (p : Reg) :
    Except Fault UInt64 → Prop
  | .ok word => ∀ dst, Exec.step symbols (.load dst ty p) m = .ok () (m.set dst (.int word))
  | .error fault => ∀ dst, Exec.step symbols (.load dst ty p) m = .error fault m

namespace Exec

variable {symbols : Symbols} {m m' : Machine} {ty : Ty} {p value : Reg} {alloc : Nat}
  {offset word : UInt64}

/-- What a load through an address comes to depends on memory alone. -/
theorem loads_loaded (symbols : Symbols) (hscalar : ty.scalarSize?.isSome = true)
    (hp : m.regs[p]? = some (.ptr alloc offset)) :
    m.Loads symbols ty p (m.memory.loaded ty ⟨alloc, offset, ty.size⟩) := by
  obtain ⟨size, hty⟩ := Option.isSome_iff_exists.1 hscalar
  obtain rfl := Ty.scalarSize?_eq_size hty
  cases hbytes : m.memory.allocations[alloc]? with
  | none =>
    have hsize : scalarSize ty m = .ok ty.size m := by rw [scalarSize, hty]; rfl
    have hrange : inRange alloc offset ty.size m = .error (.dangling alloc) m := by
      simp [inRange, Memory.size?, hbytes]
    have hloaded : m.memory.loaded ty ⟨alloc, offset, ty.size⟩ = .error (.dangling alloc) := by
      simp [Memory.loaded, Memory.size?, hbytes]
    rw [hloaded]
    intro dst
    exact (bind_of_ok (ptr_of_some hp)).trans ((bind_of_ok hsize).trans
      (bind_of_error (bind_of_error hrange)))
  | some bytes =>
    have hsize : m.memory.size? alloc = some bytes.size := by
      rw [Memory.size?, hbytes, Option.map_some]
    by_cases hle : offset.toNat + ty.size.toNat ≤ bytes.size
    · rw [Memory.loaded_of_inside ⟨bytes.size, hsize, hle⟩]
      intro dst
      have hread : m.memory.read alloc offset.toNat ty.size.toNat =
          bytes.read offset.toNat ty.size.toNat := by
        simp only [Memory.read, hbytes]
      rw [step_load symbols dst hty hp hbytes hle, hread]
    · have hloaded : m.memory.loaded ty ⟨alloc, offset, ty.size⟩ =
          .error (.outOfRange ty.size.toNat offset.toNat alloc bytes.size) := by
        simp only [Memory.loaded, hsize, if_neg hle]
      rw [hloaded]
      intro dst
      exact step_load_outOfRange symbols dst hty hp hbytes (Nat.lt_of_not_le hle)

/-- What a store that is done has done. -/
theorem memory_of_store (hvalue : m.regs[value]? = some (.int word))
    (hp : m.regs[p]? = some (.ptr alloc offset))
    (hstore : step symbols (.store ty value p) m = .ok () m') :
    ty.scalarSize?.isSome = true ∧ Span.Inside ⟨alloc, offset, ty.size⟩ m.memory ∧
      m' = { m with memory :=
        m.memory.write alloc offset.toNat (littleEndian ty.size.toNat word) } := by
  have hoperands : ∀ {result}, (scalarSize ty >>= fun size => write alloc offset size fun n =>
      littleEndian n word) m = result → step symbols (.store ty value p) m = result := fun h =>
    (bind_of_ok (int_of_some hvalue)).trans ((bind_of_ok (ptr_of_some hp)).trans h)
  cases hty : ty.scalarSize? with
  | none =>
    have hsize : scalarSize ty m = .error (.unsupportedAccess ty) m := by
      rw [scalarSize, hty]
      rfl
    cases (hoperands (bind_of_error hsize)).symm.trans hstore
  | some size =>
    obtain rfl := Ty.scalarSize?_eq_size hty
    have hsize : scalarSize ty m = .ok ty.size m := by rw [scalarSize, hty]; rfl
    rcases inRange_agree [] m ⟨alloc, offset, ty.size⟩ with ⟨hinside, hok⟩ | ⟨fault, herror⟩
    · have hrange := hok m (.refl [] m)
      cases (hoperands ((bind_of_ok hsize).trans (bind_of_ok hrange))).symm.trans hstore
      exact ⟨rfl, hinside, rfl⟩
    · have hrange := herror m (.refl [] m)
      cases (hoperands ((bind_of_ok hsize).trans (bind_of_error hrange))).symm.trans hstore

/-- The laws of loads and stores.  After a store that is done,

* a load of the same type through the same register gives the word that was stored, cut down
  to the type;
* a load of a byte through an address of the `j`-th byte gives the `j`-th byte of the word,
  counted from the lowest, whatever the type has cut off;
* a load of any type through an address of bytes that have none in common with those stored
  gives what it would have given before, or faults as it would have. -/
theorem store_loads (hvalue : m.regs[value]? = some (.int word))
    (hp : m.regs[p]? = some (.ptr alloc offset))
    (hstore : step symbols (.store ty value p) m = .ok () m') :
    m'.Loads symbols ty p (.ok (ty.truncate word)) ∧
    (∀ (q : Reg) (offset' : UInt64) (j : Nat), j < ty.size.toNat →
      m.regs[q]? = some (.ptr alloc offset') → offset'.toNat = offset.toNat + j →
        m'.Loads symbols .i8 q (.ok (UInt64.ofNat (word.toNat / 256 ^ j % 256)))) ∧
    ∀ (q : Reg) (ty' : Ty) (alloc' : Nat) (offset' : UInt64), ty'.scalarSize?.isSome = true →
      m.regs[q]? = some (.ptr alloc' offset') →
        Span.Apart ⟨alloc, offset, ty.size⟩ ⟨alloc', offset', ty'.size⟩ →
          ∃ result, m.Loads symbols ty' q result ∧ m'.Loads symbols ty' q result := by
  obtain ⟨hscalar, hinside, rfl⟩ := memory_of_store hvalue hp hstore
  refine ⟨?_, fun q offset' j hj hq hoffset => ?_, fun q ty' alloc' offset' hty' hq hapart => ?_⟩
  · rw [← Memory.loaded_write_self hscalar rfl hinside]
    exact loads_loaded symbols hscalar hp
  · rw [← Memory.loaded_write_byte rfl hinside hj hoffset]
    exact loads_loaded symbols rfl hq
  · have hsame := m.memory.sameOutside_write ⟨alloc, offset, ty.size⟩
      (length_littleEndian ty.size.toNat word)
    refine ⟨_, loads_loaded symbols hty' hq, ?_⟩
    rw [← Memory.loaded_write_apart hsame hapart]
    exact loads_loaded symbols hty' hq

/-- A machine with two allocations, a word to be stored at the second byte of the first, and
addresses of the last byte stored, of the byte after it, of the other allocation and of no byte
at all. -/
def laidOut : Machine :=
  ((((((({ memory := ⟨#[#[1, 2, 3, 4, 5, 6], #[7]]⟩ } : Machine).set ⟨0⟩ (.ptr 0 1)).set
    ⟨1⟩ (.int 0x11223344ff)).set ⟨2⟩ (.ptr 0 4)).set ⟨3⟩ (.ptr 0 5)).set ⟨4⟩ (.ptr 1 0)).set
    ⟨5⟩ (.ptr 0 0xffffffffffffffff))

/-- The machine after four bytes were stored. -/
def laidOutStored : Machine :=
  { laidOut with memory := ⟨#[#[1, 0xff, 0x44, 0x33, 0x22, 6], #[7]]⟩ }

theorem regs_laidOut : laidOut.regs[(⟨0⟩ : Reg)]? = some (.ptr 0 1) ∧
    laidOut.regs[(⟨1⟩ : Reg)]? = some (.int 0x11223344ff) ∧
    laidOut.regs[(⟨2⟩ : Reg)]? = some (.ptr 0 4) ∧ laidOut.regs[(⟨3⟩ : Reg)]? = some (.ptr 0 5) ∧
    laidOut.regs[(⟨4⟩ : Reg)]? = some (.ptr 1 0) ∧
    laidOut.regs[(⟨5⟩ : Reg)]? = some (.ptr 0 0xffffffffffffffff) := by
  simp [laidOut, Machine.regs_set]

theorem store_loads_laidOut :
    step {} (.store .i32 ⟨1⟩ ⟨0⟩) laidOut = .ok () laidOutStored ∧
      laidOutStored.Loads {} .i32 ⟨0⟩ (.ok 0x223344ff) ∧
      laidOutStored.Loads {} .i8 ⟨2⟩ (.ok 0x22) ∧
      (∃ result, laidOut.Loads {} .i8 ⟨3⟩ result ∧ laidOutStored.Loads {} .i8 ⟨3⟩ result) ∧
      (∃ result, laidOut.Loads {} .i1 ⟨4⟩ result ∧ laidOutStored.Loads {} .i1 ⟨4⟩ result) ∧
      ∃ result, laidOut.Loads {} .i64 ⟨5⟩ result ∧ laidOutStored.Loads {} .i64 ⟨5⟩ result := by
  obtain ⟨h0, h1, h2, h3, h4, h5⟩ := regs_laidOut
  have hsize : Ty.scalarSize? .i32 = some 4 := rfl
  have hbytes : laidOut.memory.allocations[0]? = some #[1, 2, 3, 4, 5, 6] := rfl
  have hstore : step {} (.store .i32 ⟨1⟩ ⟨0⟩) laidOut = .ok () laidOutStored :=
    step_store {} hsize h1 h0 hbytes (by decide)
  obtain ⟨hself, hbyte, hapart⟩ := store_loads h1 h0 hstore
  exact ⟨hstore, hself, hbyte ⟨2⟩ 4 3 (by decide) h2 rfl,
    hapart ⟨3⟩ .i8 0 5 rfl h3 (.inr (.inl (by decide))),
    hapart ⟨4⟩ .i1 1 0 rfl h4 (.inl (by decide)),
    hapart ⟨5⟩ .i64 0 _ rfl h5 (.inr (.inl (by decide)))⟩

end Exec

end TapeFlow
