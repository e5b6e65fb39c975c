import Overload.Proofs.Display
import Overload.Proofs.Steps

/-!
# Names of variables

A variable gets the next name of its supply the first time one is asked for. So within a supply a
name tells which variable it is of, in two steps: variables have different positions in the
sequence of names (`Sequenced`), and different positions have different names (`letterName_inj`).

The first is an invariant of every step, whichever supply the step is about (`Sequenced.step`). It
holds of a new supply, provided that no variable belongs to the supply yet. That is so in all stores
that are put together from nothing by creating supplies and by steps with a supply that is there
(`Arises`).
-/

namespace Overload

/-! ## The sequence of names -/

/-- The number of the round after the letter, none for the first one. -/
def roundDigits (round : Nat) : List Char := if round = 0 then [] else Nat.toDigits 10 round

theorem toList_letterName (i : Nat) :
    (letterName i).toList = Char.ofNat ('a'.toNat + i % 26) :: roundDigits (i / 26) := by
  rw [letterName, roundDigits]
  split
  · simp [Char.toString_eq_singleton]
  · simp [Char.toString_eq_singleton]

theorem roundDigits_inj {i j : Nat} (h : roundDigits i = roundDigits j) : i = j := by
  have hvalue : ∀ n, Nat.ofDigitChars 10 (roundDigits n) 0 = n := by
    intro n
    rw [roundDigits]
    split
    · next hzero => exact hzero.symm
    · exact Nat.ofDigitChars_ten_toDigits
  rw [← hvalue i, h, hvalue]

theorem letter_spec : ∀ k < 26, (Char.ofNat ('a'.toNat + k)).toNat = 'a'.toNat + k
    ∧ (Char.ofNat ('a'.toNat + k)).isLower = true := by
  decide

theorem letterName_inj {i j : Nat} (h : letterName i = letterName j) : i = j := by
  have h := congrArg String.toList h
  rw [toList_letterName, toList_letterName, List.cons.injEq] at h
  obtain ⟨hletter, hround⟩ := h
  have hletter := congrArg Char.toNat hletter
  rw [(letter_spec _ (Nat.mod_lt i (by decide))).1, (letter_spec _ (Nat.mod_lt j (by decide))).1]
    at hletter
  have hround := roundDigits_inj hround
  omega

/-- A lower-case letter, and then digits. -/
theorem letterName_shape (i : Nat) : ∃ a ds, (letterName i).toList = a :: ds ∧ a.isLower = true
    ∧ ∀ d ∈ ds, d.isDigit = true := by
  refine ⟨_, _, toList_letterName i, (letter_spec _ (Nat.mod_lt i (by decide))).2, fun d hd => ?_⟩
  rw [roundDigits] at hd
  split at hd
  · cases hd
  · exact Nat.isDigit_of_mem_toDigits (by decide) (by decide) hd

namespace Store

variable {s s' : Store} {p q : SupplyId} {v w : Var} {i : Nat}

/-! ## Positions in the sequence -/

/-- The supply of a variable. -/
def supply? (s : Store) (v : Var) : Option SupplyId := s.cells[v.index]?.map Cell.supply

/-- The position of its name in the sequence of the supply, once it has one. -/
def label? (s : Store) (v : Var) : Option Nat := s.cells[v.index]?.bind Cell.label

/-- How many names a supply has handed out. -/
def labelled (s : Store) (p : SupplyId) : Nat := (s.supplies[p]?.getD {}).labelled

theorem nameOf?_eq (h : s.supply? v = some p) : s.nameOf? v = (s.label? v).map letterName := by
  rw [supply?] at h
  rw [nameOf?, label?]
  cases hv : s.cells[v.index]? with
  | none => simp [hv] at h
  | some cell => rfl

theorem supply?_setLink (t : Ty) : (s.setLink v t).supply? w = s.supply? w := by
  rw [supply?, supply?, setLink, Array.getElem?_modify]
  split
  · cases s.cells[w.index]? <;> rfl
  · rfl

theorem label?_setLink (t : Ty) : (s.setLink v t).label? w = s.label? w := by
  rw [label?, label?, setLink, Array.getElem?_modify]
  split
  · cases s.cells[w.index]? <;> rfl
  · rfl

theorem supply?_fresh : (p.fresh s).2.supply? w
    = if w.index = s.size then some p else s.supply? w := by
  show (s.cells.push _)[w.index]?.map Cell.supply = _
  rw [Array.getElem?_push, supply?, size]
  split <;> rfl

theorem label?_fresh : (p.fresh s).2.label? w = if w.index = s.size then none else s.label? w := by
  show (s.cells.push _)[w.index]?.bind Cell.label = _
  rw [Array.getElem?_push, label?, size]
  split <;> rfl

theorem labelled_fresh : (p.fresh s).2.labelled q = s.labelled q := by
  show ((s.supplies.modify p _)[q]?.getD {}).labelled = _
  rw [Array.getElem?_modify, labelled]
  split
  · cases s.supplies[q]? <;> rfl
  · rfl

/-- A variable that has no name yet gets the next one. -/
theorem name_spec (s : Store) (v : Var) : (v.name s).2 = s
    ∨ ∃ p, s.supply? v = some p ∧ s.label? v = none
      ∧ (v.name s).2.supplies.size = s.supplies.size
      ∧ (∀ w, (v.name s).2.supply? w = s.supply? w)
      ∧ (∀ w, (v.name s).2.label? w = if w = v then some (s.labelled p) else s.label? w)
      ∧ (∀ q < s.supplies.size,
          (v.name s).2.labelled q = s.labelled q + if q = p then 1 else 0) := by
  have hindex : ∀ w : Var, v.index = w.index ↔ w = v := by
    intro w
    cases v; cases w
    simp [eq_comm]
  simp only [Var.name, modifyGet, MonadStateOf.modifyGet, StateT.modifyGet]
  cases hv : s.cells[v.index]? with
  | none => exact .inl rfl
  | some cell =>
      dsimp only
      cases hlabel : cell.label with
      | some i => exact .inl rfl
      | none =>
          refine .inr ⟨cell.supply, by simp [supply?, hv], by simp [label?, hv, hlabel],
            by simp [pure], fun w => ?_, fun w => ?_, fun q hq => ?_⟩
          · show (s.cells.modify v.index _)[w.index]?.map Cell.supply = _
            rw [Array.getElem?_modify, supply?]
            split
            · cases s.cells[w.index]? <;> rfl
            · rfl
          · show (s.cells.modify v.index _)[w.index]?.bind Cell.label = _
            rw [Array.getElem?_modify]
            by_cases hw : w = v
            · simp [hw, hv, labelled]
            · simp [hindex, hw, label?]
          · show ((s.supplies.modify cell.supply _)[q]?.getD {}).labelled = _
            rw [Array.getElem?_modify]
            by_cases hqp : cell.supply = q
            · subst hqp
              simp [labelled, hq]
            · simp [hqp, Ne.symm hqp, labelled]

/-! ## The invariant -/

/-- The names that the supply has handed out come first in its sequence, and each of them is the
name of one of its variables. -/
structure Sequenced (s : Store) (p : SupplyId) : Prop where
  lt_size : p < s.supplies.size
  label_lt {v : Var} {i : Nat} : s.supply? v = some p → s.label? v = some i → i < s.labelled p
  label_inj {v w : Var} {i : Nat} : s.supply? v = some p → s.supply? w = some p →
    s.label? v = some i → s.label? w = some i → v = w
  exists_label {i : Nat} : i < s.labelled p → ∃ v, s.supply? v = some p ∧ s.label? v = some i

theorem Sequenced.eq_of_nameOf? (h : s.Sequenced p) (hv : s.supply? v = some p)
    (hw : s.supply? w = some p) {x : String} (hvx : s.nameOf? v = some x)
    (hwx : s.nameOf? w = some x) : v = w := by
  rw [nameOf?_eq hv, Option.map_eq_some_iff] at hvx
  rw [nameOf?_eq hw, Option.map_eq_some_iff] at hwx
  obtain ⟨i, hi, rfl⟩ := hvx
  obtain ⟨j, hj, hij⟩ := hwx
  cases letterName_inj hij
  exact h.label_inj hv hw hi hj

/-- A change that hands out no name of the supply keeps the sequence. -/
theorem Sequenced.congr (h : s.Sequenced p) (hp : p < s'.supplies.size)
    (hlabelled : s'.labelled p = s.labelled p)
    (hsame : ∀ v i, s'.supply? v = some p ∧ s'.label? v = some i
      ↔ s.supply? v = some p ∧ s.label? v = some i) : s'.Sequenced p where
  lt_size := hp
  label_lt hv hi := by
    obtain ⟨hv, hi⟩ := (hsame _ _).mp ⟨hv, hi⟩
    exact hlabelled ▸ h.label_lt hv hi
  label_inj hv hw hi hj := by
    obtain ⟨hv, hi⟩ := (hsame _ _).mp ⟨hv, hi⟩
    obtain ⟨hw, hj⟩ := (hsame _ _).mp ⟨hw, hj⟩
    exact h.label_inj hv hw hi hj
  exists_label hi := by
    obtain ⟨v, hv⟩ := h.exists_label (hlabelled ▸ hi)
    exact ⟨v, (hsame _ _).mpr hv⟩

/-- A new supply has handed out no names. -/
theorem sequenced_create (hnew : ∀ v, s.supply? v ≠ some s.supplies.size) :
    (SupplyId.create s).2.Sequenced s.supplies.size where
  lt_size := by
    show _ < (s.supplies.push {}).size
    rw [Array.size_push]
    exact Nat.lt_succ_self _
  label_lt hv := absurd hv (hnew _)
  label_inj hv := absurd hv (hnew _)
  exists_label {i} hi := by
    have hzero : (SupplyId.create s).2.labelled s.supplies.size = 0 := by
      show ((s.supplies.push {})[s.supplies.size]?.getD {}).labelled = 0
      rw [Array.getElem?_push_size]
      rfl
    rw [hzero] at hi
    exact absurd hi (Nat.not_lt_zero i)

theorem Sequenced.create (h : s.Sequenced p) : (SupplyId.create s).2.Sequenced p := by
  refine h.congr ?_ ?_ fun v i => .rfl
  · show p < (s.supplies.push {}).size
    rw [Array.size_push]
    exact Nat.lt_succ_of_lt h.lt_size
  · show ((s.supplies.push {})[p]?.getD {}).labelled = _
    rw [Array.getElem?_push, if_neg (Nat.ne_of_lt h.lt_size)]
    rfl

theorem Sequenced.setLink (h : s.Sequenced p) (v : Var) (t : Ty) : (s.setLink v t).Sequenced p :=
  h.congr h.lt_size rfl fun w i => by rw [supply?_setLink, label?_setLink]

theorem Sequenced.fresh (h : s.Sequenced p) (q : SupplyId) : (q.fresh s).2.Sequenced p := by
  refine h.congr ?_ labelled_fresh fun w i => ?_
  · show p < (s.supplies.modify q _).size
    rw [Array.size_modify]
    exact h.lt_size
  · rw [supply?_fresh, label?_fresh]
    split
    · next hw => simp [label?, hw, size]
    · rfl

/-- A variable of the supply that has no name gets the next one. -/
theorem Sequenced.next (h : s.Sequenced p) (hv : s.supply? v = some p) (hnone : s.label? v = none)
    (hp : p < s'.supplies.size) (hsupply : ∀ w, s'.supply? w = s.supply? w)
    (hlabel : ∀ w, s'.label? w = if w = v then some (s.labelled p) else s.label? w)
    (hlabelled : s'.labelled p = s.labelled p + 1) : s'.Sequenced p := by
  -- a name that was handed out before is not the new one
  have hold : ∀ {w : Var}, s.supply? w = some p → s.label? w ≠ some (s.labelled p) :=
    fun hw hi => Nat.lt_irrefl _ (h.label_lt hw hi)
  refine ⟨hp, fun {w i} hw hi => ?_, fun {w w' i} hw hw' hi hi' => ?_, fun {i} hi => ?_⟩
  · rw [hsupply] at hw
    rw [hlabel] at hi
    rw [hlabelled]
    split at hi
    · cases hi
      exact Nat.lt_succ_self _
    · exact Nat.lt_succ_of_lt (h.label_lt hw hi)
  · rw [hsupply] at hw hw'
    rw [hlabel] at hi hi'
    split at hi <;> split at hi'
    · next hwv hwv' => rw [hwv, hwv']
    · cases hi
      exact absurd hi' (hold hw')
    · cases hi'
      exact absurd hi (hold hw)
    · exact h.label_inj hw hw' hi hi'
  · rw [hlabelled] at hi
    rcases Nat.lt_succ_iff_lt_or_eq.mp hi with hi | rfl
    · obtain ⟨w, hw, hwi⟩ := h.exists_label hi
      have hne : w ≠ v := by
        rintro rfl
        cases hnone.symm.trans hwi
      exact ⟨w, by rwa [hsupply], by rwa [hlabel, if_neg hne]⟩
    · exact ⟨v, by rwa [hsupply], by rw [hlabel, if_pos rfl]⟩

theorem Sequenced.name (h : s.Sequenced p) (v : Var) : (v.name s).2.Sequenced p := by
  rcases s.name_spec v with heq | ⟨q, hv, hnone, hsize, hsupply, hlabel, hlabelled⟩
  · rwa [heq]
  have hp : p < (v.name s).2.supplies.size := hsize ▸ h.lt_size
  have hlabelled := hlabelled p h.lt_size
  by_cases hq : p = q
  · subst hq
    rw [if_pos rfl] at hlabelled
    exact h.next hv hnone hp hsupply hlabel hlabelled
  · -- the name is from another supply
    rw [if_neg hq] at hlabelled
    refine h.congr hp hlabelled fun w i => ?_
    rw [hsupply, hlabel]
    split
    · next hw =>
        subst hw
        have hw : s.supply? w ≠ some p := fun hw => hq (Option.some.inj (hw.symm.trans hv))
        simp [hw]
    · rfl

theorem Sequenced.step (h : s.Sequenced p) (hstep : Step q s s') : s'.Sequenced p := by
  cases hstep with
  | link v t => exact h.setLink v t
  | name v => exact h.name v
  | fresh => exact h.fresh q

/-- The stores that come about from nothing. Supplies are created, and everything else is a number
of steps with a supply that is there (`Infer.Built.steps`). -/
inductive Arises : Store → Prop
  | empty : Arises {}
  | create {s : Store} : Arises s → Arises (SupplyId.create s).2
  | step {s s' : Store} {p : SupplyId} : Arises s → p < s.supplies.size → Step p s s' → Arises s'

theorem Step.size_supplies (h : Step p s s') : s'.supplies.size = s.supplies.size := by
  cases h with
  | link v t => rfl
  | name v =>
      rcases s.name_spec v with heq | ⟨-, -, -, hsize, -⟩
      · rw [heq]
      · exact hsize
  | fresh => exact Array.size_modify ..

theorem Arises.supply_lt (h : s.Arises) (hv : s.supply? v = some p) : p < s.supplies.size := by
  induction h generalizing v with
  | empty => simp [supply?] at hv
  | @create s _ ih =>
      show p < (s.supplies.push {}).size
      rw [Array.size_push]
      exact Nat.lt_succ_of_lt (ih hv)
  | @step s s' q _ hq hstep ih =>
      rw [hstep.size_supplies]
      cases hstep with
      | link w t => exact ih ((supply?_setLink t).symm.trans hv)
      | name w =>
          rcases s.name_spec w with heq | ⟨-, -, -, -, hsupply, -⟩
          · exact ih (heq ▸ hv)
          · exact ih ((hsupply v).symm.trans hv)
      | fresh =>
          rw [supply?_fresh] at hv
          split at hv
          · cases hv
            exact hq
          · exact ih hv

theorem Arises.sequenced (h : s.Arises) (hp : p < s.supplies.size) : s.Sequenced p := by
  induction h with
  | empty => exact absurd hp (Nat.not_lt_zero p)
  | @create s hs ih =>
      have hp : p < (s.supplies.push {}).size := hp
      rw [Array.size_push] at hp
      rcases Nat.lt_succ_iff_lt_or_eq.mp hp with hp | rfl
      · exact (ih hp).create
      · exact sequenced_create fun v hv => Nat.lt_irrefl _ (hs.supply_lt hv)
  | step _ _ hstep ih => exact (ih (hstep.size_supplies ▸ hp)).step hstep

/-! ## Later stores -/

theorem lt_size_of_supply? (h : s.supply? v = some p) : v.index < s.size := by
  obtain ⟨cell, hcell, -⟩ := Option.map_eq_some_iff.mp h
  exact (Array.getElem?_eq_some_iff.mp hcell).1

/-- A variable stays with its supply. -/
theorem Step.supply? (h : Step p s s') (hv : s.supply? v = some q) : s'.supply? v = some q := by
  cases h with
  | link w t => rwa [supply?_setLink]
  | name w =>
      rcases s.name_spec w with heq | ⟨-, -, -, -, hsupply, -⟩
      · rwa [heq]
      · rwa [hsupply]
  | fresh => rwa [supply?_fresh, if_neg (Nat.ne_of_lt (lt_size_of_supply? hv))]

theorem Steps.size_supplies (h : Steps p s s') : s'.supplies.size = s.supplies.size := by
  induction h with
  | refl => rfl
  | tail _ hstep ih => exact hstep.size_supplies.trans ih

theorem Steps.supply? (h : Steps p s s') (hv : s.supply? v = some q) : s'.supply? v = some q := by
  induction h with
  | refl => exact hv
  | tail _ hstep ih => exact hstep.supply? ih

theorem Arises.steps (h : s.Arises) (hp : p < s.supplies.size) (hsteps : Steps p s s') :
    s'.Arises := by
  induction hsteps with
  | refl => exact h
  | tail hsteps hstep ih => exact ih.step (by rwa [Steps.size_supplies hsteps]) hstep

/-- All of the given variables can be named, in addition to those that are. -/
theorem exists_named (p : SupplyId) (s : Store) (vs : List Var) :
    ∃ s', Steps p s s' ∧ s.Retains s' ∧ ∀ v ∈ vs, ∃ x, s'.nameOf? v = some x := by
  induction vs generalizing s with
  | nil => exact ⟨s, .refl, .refl s, by simp⟩
  | cons v vs ih =>
      obtain ⟨hret, hname⟩ := s.retains_name v
      obtain ⟨s', hsteps, hret', hnames⟩ := ih (v.name s).2
      refine ⟨s', .head (.name v) hsteps, hret.trans hret', fun w hw => ?_⟩
      rcases List.mem_cons.mp hw with rfl | hw
      · exact ⟨_, hret' w _ hname⟩
      · exact hnames w hw

/-- In some store to come all variables of the supply have names, and no two have the same. -/
theorem Arises.exists_names (h : s.Arises) {s₁ : Store} (hsteps : Steps p s s₁) :
    ∃ s', s₁.Retains s' ∧ (∀ v, s.supply? v = some p → ∃ i, s'.nameOf v = letterName i)
      ∧ ∀ v w, s.supply? v = some p → s.supply? w = some p → s'.nameOf v = s'.nameOf w → v = w := by
  by_cases hp : p < s.supplies.size
  · obtain ⟨s', hsteps', hret, hnames⟩ := s₁.exists_named p ((List.range s.size).map Var.mk)
    have hsteps' := hsteps.trans hsteps'
    have hname : ∀ v, s.supply? v = some p →
        ∃ i, s'.nameOf? v = some (letterName i) ∧ s'.nameOf v = letterName i := by
      intro v hv
      have hmem : v ∈ (List.range s.size).map Var.mk :=
        List.mem_map_of_mem (List.mem_range.mpr (lt_size_of_supply? hv))
      obtain ⟨x, hx⟩ := hnames v hmem
      obtain ⟨i, -, rfl⟩ := Option.map_eq_some_iff.mp
        ((nameOf?_eq (Steps.supply? hsteps' hv)).symm.trans hx)
      exact ⟨i, hx, by rw [nameOf, hx, Option.getD_some]⟩
    refine ⟨s', hret, fun v hv => ?_, fun v w hv hw heq => ?_⟩
    · obtain ⟨i, -, hi⟩ := hname v hv
      exact ⟨i, hi⟩
    · obtain ⟨i, hvi, hi⟩ := hname v hv
      obtain ⟨j, hwj, hj⟩ := hname w hw
      rw [hi, hj] at heq
      rw [← heq] at hwj
      have hseq := (h.steps hp hsteps').sequenced (p := p) (by rwa [Steps.size_supplies hsteps'])
      exact hseq.eq_of_nameOf? (Steps.supply? hsteps' hv) (Steps.supply? hsteps' hw) hvi hwj
  · -- there is no such supply
    have hnone : ∀ v, s.supply? v ≠ some p := fun v hv => hp (h.supply_lt hv)
    exact ⟨s₁, .refl _, fun v hv => absurd hv (hnone v), fun v _ hv => absurd hv (hnone v)⟩

end Store

end Overload
