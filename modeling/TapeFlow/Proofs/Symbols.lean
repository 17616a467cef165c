import Mathlib.Data.List.Nodup
import TapeFlow.Capability
import TapeFlow.Check.Report

/-!
# The names of the capabilities

The three names are free, and a name that is used twice stands for one
capability only.  As long as the names differ, every capability is found under
its own name, and its declaration gives the number of its arguments.

Where names agree, a name stands for the first capability that has it, and the
checker counts the arguments of the last: `Symbols.capability?_nameOf_iff` says when
the two come to the same.
-/

namespace TapeFlow

theorem Capability.eq_of_params_length {c d : Capability}
    (h : c.signature.params.length = d.signature.params.length) : c = d := by
  cases c <;> cases d <;> first | rfl | cases h

namespace Symbols

/-- The three names are different. -/
def Distinct (s : Symbols) : Prop := (order.map s.nameOf).Nodup

instance (s : Symbols) : Decidable s.Distinct := inferInstanceAs (Decidable (List.Nodup _))

variable {s : Symbols}

theorem mem_order (c : Capability) : c ∈ order := by cases c <;> decide

theorem Distinct.inj (h : s.Distinct) {c d : Capability} (hcd : s.nameOf c = s.nameOf d) :
    c = d :=
  List.inj_on_of_nodup_map h (mem_order c) (mem_order d) hcd

/-- A capability is found under its name. -/
theorem Distinct.capability?_nameOf (h : s.Distinct) (c : Capability) :
    s.capability? (s.nameOf c) = some c := by
  have hsome : (s.capability? (s.nameOf c)).isSome := by
    rw [capability?, List.find?_isSome]
    exact ⟨c, mem_order c, beq_self_eq_true _⟩
  obtain ⟨d, hd⟩ := Option.isSome_iff_exists.1 hsome
  have hname : s.nameOf c = s.nameOf d := by simpa using List.find?_some hd
  rw [hd, h.inj hname]

/-- Only the names of capabilities are declared, each with its parameters. -/
theorem exists_of_arity? {m : Module} (hm : m.declarations = s.declarations) {symbol : String}
    {n : Nat} (h : m.arity? symbol = some n) :
    ∃ c, symbol = s.nameOf c ∧ n = c.signature.params.length := by
  rw [Module.arity?, hm, Option.map_eq_some_iff] at h
  obtain ⟨d, hd, rfl⟩ := h
  have hmem := List.mem_of_find?_eq_some hd
  rw [List.mem_reverse, declarations, List.mem_map] at hmem
  obtain ⟨c, -, rfl⟩ := hmem
  have hname : s.nameOf c = symbol := by simpa using List.find?_some hd
  exact ⟨c, hname.symm, rfl⟩

theorem Distinct.arity?_nameOf (h : s.Distinct) {m : Module}
    (hm : m.declarations = s.declarations) (c : Capability) :
    m.arity? (s.nameOf c) = some c.signature.params.length := by
  have hsome : (m.arity? (s.nameOf c)).isSome := by
    rw [Module.arity?, hm, Option.isSome_map, List.find?_isSome]
    refine ⟨⟨s.nameOf c, c.signature.params, c.signature.ret⟩, ?_, beq_self_eq_true _⟩
    rw [List.mem_reverse, declarations, List.mem_map]
    exact ⟨c, mem_order c, rfl⟩
  obtain ⟨n, hn⟩ := Option.isSome_iff_exists.1 hsome
  obtain ⟨d, hname, hlen⟩ := exists_of_arity? hm hn
  rw [hn, hlen, h.inj hname]

end Symbols

/-! ## Names in common -/

/-- Where the last member with a property is also the first, it is the only one. -/
theorem find?_eq_some_iff_of_reverse {α : Type} {l : List α} (hnodup : l.Nodup) {p : α → Bool}
    {c : α} (hlast : l.reverse.find? p = some c) :
    l.find? p = some c ↔ ∀ d ∈ l, p d = true → d = c := by
  obtain ⟨hc, after, before, hsplit, hafter⟩ := List.find?_eq_some_iff_append.1 hlast
  have hl : l = before.reverse ++ c :: after.reverse := by
    have hreverse := congrArg List.reverse hsplit
    simpa using hreverse
  constructor
  · intro hfirst d hd hpd
    obtain ⟨-, front, back, hsplit', hfront⟩ := List.find?_eq_some_iff_append.1 hfirst
    have hnot : c ∉ front ∧ c ∉ back := by
      rw [hsplit', List.nodup_middle, List.nodup_cons, List.mem_append, not_or] at hnodup
      exact hnodup.1
    -- the list is cut at the same place both times
    have hback : back = after.reverse :=
      ((List.append_cons_inj_of_notMem hnot.1 hnot.2).1 (hsplit'.symm.trans hl)).2.2
    rw [hsplit', List.mem_append, List.mem_cons] at hd
    rcases hd with hd | hd | hd
    · have hfalse := hfront d hd
      simp [hpd] at hfalse
    · exact hd
    · rw [hback, List.mem_reverse] at hd
      have hfalse := hafter d hd
      simp [hpd] at hfalse
  · intro honly
    have hmem : c ∈ l := List.mem_reverse.1 (List.mem_of_find?_eq_some hlast)
    have hsome : (l.find? p).isSome := List.find?_isSome.2 ⟨c, hmem, hc⟩
    obtain ⟨d, hd⟩ := Option.isSome_iff_exists.1 hsome
    rw [hd, honly d (List.mem_of_find?_eq_some hd) (List.find?_some hd)]

namespace Symbols

variable {s : Symbols} {m : Module}

/-- The checker goes by the last capability with a name. -/
theorem arity?_eq (hm : m.declarations = s.declarations) (name : String) :
    m.arity? name = (order.reverse.find? fun c => name == s.nameOf c).map fun c =>
      c.signature.params.length := by
  rw [Module.arity?, hm, declarations, ← List.map_reverse, List.find?_map, Option.map_map]
  simp only [Function.comp_def, Bool.beq_comm (a := name)]

/-- If the checker counts the arguments of a capability by its own declaration, the
capability is found under its name exactly if no other has the name. -/
theorem capability?_nameOf_iff (hm : m.declarations = s.declarations) {c : Capability}
    (h : m.arity? (s.nameOf c) = some c.signature.params.length) :
    s.capability? (s.nameOf c) = some c ↔ ∀ d, s.nameOf d = s.nameOf c → d = c := by
  have hlast : order.reverse.find? (fun d => s.nameOf c == s.nameOf d) = some c := by
    rw [arity?_eq hm, Option.map_eq_some_iff] at h
    obtain ⟨d, hd, hlen⟩ := h
    rw [hd, Capability.eq_of_params_length hlen]
  unfold capability?
  rw [find?_eq_some_iff_of_reverse (by decide) hlast]
  simp only [mem_order, true_implies, beq_iff_eq, eq_comm (b := s.nameOf c)]

end Symbols

end TapeFlow
