import Overload.Proofs.Copying
import Overload.Proofs.Steps
import Overload.Proofs.Unification

/-!
# A copy replaces variables one to one

A copy goes on with a renaming that earlier copies have filled. It adds a replacement for each
variable that it meets, may rename, and finds none for: the first of them gets the first variable
that the supply hands out, the second one the next (`Renaming.numbers_meetAll`). The replacements
that were there stay, whatever has been linked since. So a renaming that only copies have written to
sends different variables to different ones at any time (`Renaming.Recorded.injective`).
-/

namespace Overload

namespace Store

/-- A variable at the end of the list is new, or has been found before. -/
theorem addNew_concat (found vs : List Var) (v : Var) :
    addNew found (vs ++ [v])
      = if v ∈ addNew found vs then addNew found vs else addNew found vs ++ [v] := by
  rw [addNew, List.foldl_append]
  rfl

end Store

namespace Renaming

/-! ## Numbering -/

/-- The variables of a list that the renaming has no replacement for, though it may replace
them. -/
def missing (m : Renaming) (kept vs : List Var) : List Var :=
  vs.filter fun v => v ∉ kept ∧ m.lookup v = none

theorem mem_missing {m : Renaming} {kept vs : List Var} {v : Var} :
    v ∈ m.missing kept vs ↔ v ∈ vs ∧ v ∉ kept ∧ m.lookup v = none := by
  simp [missing]

theorem missing_append (m : Renaming) (kept vs ws : List Var) :
    m.missing kept (vs ++ ws) = m.missing kept vs ++ m.missing kept ws :=
  List.filter_append ..

theorem missing_singleton (m : Renaming) (kept : List Var) (v : Var) :
    m.missing kept [v] = if v ∉ kept ∧ m.lookup v = none then [v] else [] := by
  rw [missing, List.filter_singleton, cond_eq_ite]
  simp only [decide_eq_true_eq]

/-- `m'` is `m` with replacements for the variables `vs`, numbered from `k` on. -/
structure Numbers (m : Renaming) (k : Nat) (vs : List Var) (m' : Renaming) (k' : Nat) : Prop where
  count : k' = k + vs.length
  old : ∀ v, v ∉ vs → m'.lookup v = m.lookup v
  new : ∀ i v, vs[i]? = some v → m'.lookup v = some ⟨k + i⟩

theorem Numbers.nil (m : Renaming) (k : Nat) : m.Numbers k [] m k :=
  ⟨rfl, fun _ _ => rfl, fun i v h => by simp at h⟩

theorem Numbers.concat {m m' : Renaming} {k k' : Nat} {vs : List Var}
    (h : m.Numbers k vs m' k') {v : Var} (hv : v ∉ vs) :
    m.Numbers k (vs ++ [v]) ((v, ⟨k'⟩) :: m') (k' + 1) where
  count := by simp [h.count]; omega
  old u hu := by
    rw [List.mem_append, List.mem_singleton, not_or] at hu
    rw [List.lookup_cons, beq_false_of_ne hu.2]
    exact h.old u hu.1
  new i u hu := by
    rw [List.lookup_cons]
    rcases Nat.lt_or_ge i vs.length with hi | hi
    · rw [List.getElem?_append_left hi] at hu
      have hne : u ≠ v := by
        rintro rfl
        exact hv (List.mem_of_getElem? hu)
      rw [beq_false_of_ne hne]
      exact h.new i u hu
    · rw [List.getElem?_append_right hi] at hu
      have hi' : i = vs.length := by
        have hlt := (List.getElem?_eq_some_iff.mp hu).1
        simp at hlt
        omega
      subst hi'
      obtain rfl : v = u := by simpa using hu
      simp [h.count]

/-- Replacements are handed out in the order in which variables are met first. The induction takes
the last variable off, as it is the one that is met with the renaming as it has become. -/
theorem numbers_meetAll (kept : List Var) (m : Renaming) (k : Nat) (vs : List Var) :
    m.Numbers k (m.missing kept (Store.addNew [] vs)) (meetAll kept (m, k) vs).1
      (meetAll kept (m, k) vs).2 := by
  induction vs using List.reverseRecOn with
  | nil => exact .nil m k
  | append_singleton vs v ih =>
      rw [Store.addNew_concat, meetAll_append]
      generalize meetAll kept (m, k) vs = found at ih ⊢
      obtain ⟨m', k'⟩ := found
      show m.Numbers k _ (meet kept (m', k') v).1 (meet kept (m', k') v).2
      by_cases h : v ∈ kept ∨ (m'.lookup v).isSome
      · rw [meet, if_pos h]
        split
        · exact ih
        · next hnew =>
            have hv : v ∉ m.missing kept (Store.addNew [] vs) := fun hv =>
              hnew (mem_missing.mp hv).1
            have hno : ¬(v ∉ kept ∧ m.lookup v = none) := by
              rintro ⟨hk, hm⟩
              rw [← ih.old v hv] at hm
              simp [hk, hm] at h
            rwa [missing_append, missing_singleton, if_neg hno, List.append_nil]
      · rw [meet, if_neg h]
        obtain ⟨hk, hnone⟩ := not_or.mp h
        have hnone : m'.lookup v = none := Option.not_isSome_iff_eq_none.mp hnone
        have hv : v ∉ m.missing kept (Store.addNew [] vs) := by
          intro hv
          obtain ⟨i, hi⟩ := List.mem_iff_getElem?.mp hv
          exact Option.some_ne_none _ ((ih.new i v hi).symm.trans hnone)
        have hm : m.lookup v = none := (ih.old v hv).symm.trans hnone
        have hnew : v ∉ Store.addNew [] vs := fun hmem => hv (mem_missing.mpr ⟨hmem, hk, hm⟩)
        rw [if_neg hnew, missing_append, missing_singleton, if_pos ⟨hk, hm⟩]
        exact ih.concat hv

/-! ## Renamings that copies have written -/

/-- What copies have written to `m`, from an empty renaming on, up to the store `s`. Between the
copies variables may have been allocated and linked. -/
inductive Recorded : Store → Renaming → Prop
  | empty {s : Store} : s.WellFormed → Recorded s []
  | copy {s : Store} {m : Renaming} (t : Ty) (fixed : List Var) (p : SupplyId) : Recorded s m →
      Recorded (t.copyWith fixed p m s).2 (t.copyWith fixed p m s).1.2
  | later {s s' : Store} {m : Renaming} : Recorded s m → s.Extends s' → Recorded s' m

namespace Recorded

variable {s : Store} {m : Renaming}

theorem wellFormed (h : Recorded s m) : s.WellFormed := by
  induction h with
  | empty hs => exact hs
  | copy t fixed p _ ih => exact (Store.copies_copyWith ih t fixed p _ _ (.refl ih)).1.wellFormed
  | later _ hext _ => exact hext.wellFormed

theorem grows (h : Recorded s m) (t : Ty) (fixed : List Var) (p : SupplyId) :
    m.Grows s.size (t.copyWith fixed p m s).1.2 (t.copyWith fixed p m s).2.size := by
  obtain ⟨-, hm, -⟩ := Store.copies_copyWith h.wellFormed t fixed p m s (.refl h.wellFormed)
  have hgrows := grows_meetAll (s.varsOf fixed) (s.resolve t).vars m s.size
  rwa [← hm] at hgrows

theorem lt_size (h : Recorded s m) {v w : Var} (hw : m.lookup v = some w) : w.index < s.size := by
  induction h generalizing v w with
  | empty => cases hw
  | copy t fixed p h ih =>
      have hgrows := h.grows t fixed p
      rcases hgrows.new v w hw with hold | hnew
      · exact Nat.lt_of_lt_of_le (ih hold) hgrows.le
      · exact hnew.2
  | later _ hext ih => exact Nat.lt_of_lt_of_le (ih hw) hext.size_le

/-- No two variables have the same replacement. A new replacement is a new variable, so it differs
from all that were there. -/
theorem injective (h : Recorded s m) {v v' w : Var} (hv : m.lookup v = some w)
    (hv' : m.lookup v' = some w) : v = v' := by
  induction h generalizing v v' w with
  | empty => cases hv
  | @copy s m t fixed p h ih =>
      have hgrows := h.grows t fixed p
      have hapart : ∀ {u u' x}, m.lookup u = some x → m.lookup u' = none → x = w →
          (t.copyWith fixed p m s).1.2.lookup u' ≠ some w := by
        rintro u u' x hu hu' rfl hw
        have hlt := h.lt_size hu
        have hle := (hgrows.bounds hu' hw).1
        omega
      cases hm : m.lookup v with
      | none =>
          cases hm' : m.lookup v' with
          | none => exact hgrows.inj v v' w hm hm' hv hv'
          | some x' =>
              have hx' := Option.some.inj ((hgrows.keeps v' x' hm').symm.trans hv')
              exact absurd hv (hapart hm' hm hx')
      | some x =>
          have hx := Option.some.inj ((hgrows.keeps v x hm).symm.trans hv)
          cases hm' : m.lookup v' with
          | none => exact absurd hv' (hapart hm hm' hx)
          | some x' =>
              have hx' := Option.some.inj ((hgrows.keeps v' x' hm').symm.trans hv')
              exact ih (hx ▸ hm) (hx' ▸ hm')
  | later _ _ ih => exact ih hv hv'

end Recorded

end Renaming

/-! ## The supply -/

theorem Ledger.size_allocated_iterate_draw (p : SupplyId) (l : Ledger) (k : Nat) :
    ((draw p)^[k] l).allocated.size = l.allocated.size := by
  induction k with
  | zero => rfl
  | succ k ih => rw [Function.iterate_succ_apply', draw, Array.size_modify, ih]

theorem Ledger.allocated_iterate_draw {p : SupplyId} {l : Ledger} (hp : p < l.allocated.size)
    (k : Nat) : ((draw p)^[k] l).allocated.getD p 0 = l.allocated.getD p 0 + k := by
  induction k with
  | zero => rfl
  | succ k ih =>
      have hp' : p < ((draw p)^[k] l).allocated.size := by rwa [size_allocated_iterate_draw]
      rw [Function.iterate_succ_apply', draw, ← Nat.add_assoc, ← ih]
      simp [Array.getD_eq_getD_getElem?, Array.getElem_modify, hp']

theorem Store.allocated_eq (s : Store) (p : SupplyId) :
    s.allocated p = s.ledger.allocated.getD p 0 := by
  rw [allocated, ledger, Array.getD_eq_getD_getElem?, Array.getElem?_map]
  cases s.supplies[p]? with
  | none => rfl
  | some u => rfl

/-! ## Copies -/

namespace Store

variable {s : Store} (hs : s.WellFormed) (t : Ty) (fixed : List Var) (p : SupplyId) (m : Renaming)
include hs

theorem numbers_copyWith :
    m.Numbers s.size (m.missing (s.varsOf fixed) (t.freeVars s).1) (t.copyWith fixed p m s).1.2
      (t.copyWith fixed p m s).2.size := by
  obtain ⟨-, hm, -⟩ := copies_copyWith hs t fixed p m s (.refl hs)
  have hnumbers := Renaming.numbers_meetAll (s.varsOf fixed) m s.size (s.resolve t).vars
  rwa [← hm, ← ((reads_freeVars hs t).here hs).1] at hnumbers

theorem ledger_copyWith :
    (t.copyWith fixed p m s).2.ledger
      = (Ledger.draw p)^[(m.missing (s.varsOf fixed) (t.freeVars s).1).length] s.ledger := by
  obtain ⟨k, hledger⟩ := (Stepwise.copyWith (p := p) t fixed m s).ledger_eq_iterate
  have hsize := (numbers_copyWith hs t fixed p m).count
  rw [← size_ledger, hledger, Ledger.size_iterate_draw, size_ledger] at hsize
  rw [hledger, Nat.add_left_cancel hsize]

end Store

/-- A copy is the resolved term with the variables replaced that are no part of a fixed one. The
replacements that the renaming has stay. Those that it lacks are the next variables of the supply,
in the order in which the term shows what they replace. The store changes in no other way, and a
renaming that only copies have written to stays one to one. -/
theorem copy_instantiates {s s' : Store} {t u : Ty} {fixed : List Var} {p : SupplyId}
    {m m' : Renaming} (hs : s.WellFormed) (h : t.copyWith fixed p m s = ((u, m'), s')) :
    let kept := s.varsOf fixed
    let new := m.missing kept (t.freeVars s).1
    u = (s.resolve t).subst (m'.toSubst kept)
      ∧ (∀ v ∈ (s.resolve t).vars, v ∉ kept → ∃ w, m'.lookup v = some w)
      ∧ (∀ v, v ∉ new → m'.lookup v = m.lookup v)
      ∧ (∀ i v, new[i]? = some v → m'.lookup v = some ⟨s.size + i⟩)
      ∧ s'.ledger = (Ledger.draw p)^[new.length] s.ledger
      ∧ (p < s.supplies.size → s'.allocated p = s.allocated p + new.length)
      ∧ (∀ u, s'.resolve u = s.resolve u)
      ∧ (m.Recorded s → ∀ v v' w, m'.lookup v = some w → m'.lookup v' = some w → v = v') := by
  have hcopies := Store.copies_copyWith hs t fixed p m s (.refl hs)
  have hnumbers := Store.numbers_copyWith hs t fixed p m
  have hledger := Store.ledger_copyWith hs t fixed p m
  rw [h] at hcopies hnumbers hledger
  obtain ⟨halike, hm, hu⟩ := hcopies
  refine ⟨hu, fun v hv hk => ?_, hnumbers.old, hnumbers.new, hledger, fun hp => ?_,
    halike.resolve_eq hs, fun hrec v v' w => ?_⟩
  · have hmet := Renaming.met (s.varsOf fixed) hv m s.size
    rw [← hm] at hmet
    exact hmet.resolve_left hk
  · have hp' : p < s.ledger.allocated.size := by rwa [Store.ledger, Array.size_map]
    rw [Store.allocated_eq, Store.allocated_eq, hledger]
    exact Ledger.allocated_iterate_draw hp' _
  · have hrec' := hrec.copy t fixed p
    rw [h] at hrec'
    exact hrec'.injective

/-- Copied first, `#1` becomes `#3`. With `#3` fixed, `(#3, #2, #0, #2)` is copied to
`(#3, #4, List #3, #4)`: what `#0` shows is replaced as before. -/
theorem copy_instantiates_sample :
    let m := ((Ty.var ⟨1⟩).copyWith [] 0 [] Store.sample).1.2
    let s := ((Ty.var ⟨1⟩).copyWith [] 0 [] Store.sample).2
    let t := Ty.tuple [.var ⟨3⟩, .var ⟨2⟩, .var ⟨0⟩, .var ⟨2⟩]
    ∃ u m' s', s.WellFormed ∧ m.Recorded s ∧ t.copyWith [⟨3⟩] 0 m s = ((u, m'), s')
      ∧ m.missing (s.varsOf [⟨3⟩]) (t.freeVars s).1 = [⟨2⟩]
      ∧ u = Ty.tuple [.var ⟨3⟩, .var ⟨4⟩, .list (.var ⟨3⟩), .var ⟨4⟩]
      ∧ m'.lookup ⟨1⟩ = some ⟨3⟩ ∧ m'.lookup ⟨2⟩ = some ⟨4⟩ ∧ s'.allocated 0 = s.allocated 0 + 1
      ∧ (∀ u, s'.resolve u = s.resolve u)
      ∧ ∀ v v' w, m'.lookup v = some w → m'.lookup v' = some w → v = v' := by
  intro m s t
  have hrec : m.Recorded s := (Renaming.Recorded.empty Store.sample_wellFormed).copy (.var ⟨1⟩) [] 0
  have hnew : m.missing (s.varsOf [⟨3⟩]) (t.freeVars s).1 = [⟨2⟩] := by decide +kernel
  have hu : (t.copyWith [⟨3⟩] 0 m s).1.1
      = Ty.tuple [.var ⟨3⟩, .var ⟨4⟩, .list (.var ⟨3⟩), .var ⟨4⟩] := by decide +kernel
  rcases h : t.copyWith [⟨3⟩] 0 m s with ⟨⟨u, m'⟩, s'⟩
  obtain ⟨-, -, hkeep, hadd, -, hcount, hsame, hone⟩ := copy_instantiates hrec.wellFormed h
  rw [hnew] at hkeep hadd hcount
  rw [h] at hu
  exact ⟨u, m', s', hrec.wellFormed, hrec, rfl, hnew, hu, hkeep ⟨1⟩ (by decide),
    hadd 0 ⟨2⟩ rfl, hcount (by decide +kernel), hsame, hone hrec⟩

end Overload
