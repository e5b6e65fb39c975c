import Mathlib.Data.Finset.Card
import Mathlib.Data.Finset.Range
import Mathlib.Logic.Relation
import Overload.Proofs.Substitution
import Overload.Types.Store

/-!
# What a store means

Links form a graph on the variables. Where it has no cycle, each term has a resolved form, with
all links followed (`Store.resolve`), and the store is a set of equations: its solutions are the
substitutions that give a bound variable the value of its link. The two views determine each
other: `resolve` gives the most general solution, and every solution factors through it.

`WellFormed` is what every store keeps: no cycle, and every variable that a link mentions has a
cell. The second half cannot fail where variables are handed out by the store, since there a
variable *is* its cell; here it has to be said.
-/

namespace Overload

namespace Store

open Relation

/-! ## The graph of links -/

/-- `v` is linked to a term that mentions `w`. -/
def Points (s : Store) (v w : Var) : Prop := ∃ t, s.link? v = some t ∧ w ∈ t.vars

/-- No variable reaches itself through links and arguments. -/
def Acyclic (s : Store) : Prop := ∀ v, ¬TransGen s.Points v v

/-- Every variable of the term has a cell. -/
def Covers (s : Store) (t : Ty) : Prop := ∀ v ∈ t.vars, v.index < s.size

instance (s : Store) (t : Ty) : Decidable (s.Covers t) :=
  inferInstanceAs (Decidable (∀ v ∈ t.vars, v.index < s.size))

structure WellFormed (s : Store) : Prop where
  closed : ∀ {v t}, s.link? v = some t → s.Covers t
  acyclic : s.Acyclic

theorem lt_size_of_link? {s : Store} {v : Var} {t : Ty} (h : s.link? v = some t) :
    v.index < s.size := by
  by_contra hv
  have : s.cells[v.index]? = none := Array.getElem?_eq_none_iff.mpr (Nat.le_of_not_lt hv)
  simp [link?, this] at h

theorem link?_of_size_le {s : Store} {v : Var} (h : s.size ≤ v.index) : s.link? v = none := by
  by_contra hl
  obtain ⟨t, hl⟩ := Option.ne_none_iff_exists'.mp hl
  have hlt := lt_size_of_link? hl
  omega

@[simp] theorem covers_var {s : Store} {v : Var} : s.Covers (.var v) ↔ v.index < s.size := by
  simp [Covers]

theorem covers_con {s : Store} {c : TypeCon} {args : List Ty} :
    s.Covers (.con c args) ↔ ∀ a ∈ args, s.Covers a := by
  simp only [Covers, Ty.vars_con, List.mem_flatMap]
  constructor
  · intro h a ha v hv
    exact h v ⟨a, ha, hv⟩
  · rintro h v ⟨a, ha, hv⟩
    exact h a ha v hv

theorem covers_fn {s : Store} {a b : Ty} :
    s.Covers (.fn a b) ↔ s.Covers a ∧ s.Covers b := by
  simp [Ty.fn, covers_con]

theorem Covers.mono {s s' : Store} {t : Ty} (h : s.Covers t) (hle : s.size ≤ s'.size) :
    s'.Covers t := fun v hv => Nat.lt_of_lt_of_le (h v hv) hle

/-- A numbering that falls along every link rules cycles out. -/
theorem acyclic_of_rank {s : Store} (rank : Var → Nat)
    (h : ∀ v w, s.Points v w → rank w < rank v) : s.Acyclic := by
  have hfall : ∀ v w, TransGen s.Points v w → rank w < rank v := by
    intro v w hvw
    induction hvw with
    | single hvw => exact h _ _ hvw
    | tail _ hstep ih => exact Nat.lt_trans (h _ _ hstep) ih
  intro v hv
  exact Nat.lt_irrefl _ (hfall v v hv)

open Classical in
/-- How many variables are in reach. Without a cycle it falls along every link. -/
noncomputable def rank (s : Store) (v : Var) : Nat :=
  ((Finset.range s.size).filter fun i => ReflTransGen s.Points v ⟨i⟩).card

theorem rank_le_size (s : Store) (v : Var) : s.rank v ≤ s.size := by
  classical
  have h := Finset.card_filter_le (Finset.range s.size) fun i => ReflTransGen s.Points v ⟨i⟩
  rwa [Finset.card_range] at h

theorem rank_pos {s : Store} {v : Var} {t : Ty} (h : s.link? v = some t) : 0 < s.rank v := by
  classical
  refine Finset.card_pos.mpr ⟨v.index, ?_⟩
  simp only [Finset.mem_filter, Finset.mem_range]
  exact ⟨lt_size_of_link? h, .refl⟩

theorem rank_lt {s : Store} (hs : s.Acyclic) {v w : Var} (h : s.Points v w) :
    s.rank w < s.rank v := by
  classical
  obtain ⟨t, ht, -⟩ := id h
  refine Finset.card_lt_card (Finset.ssubset_iff_of_subset ?_ |>.mpr ⟨v.index, ?_, ?_⟩)
  · intro i hi
    simp only [Finset.mem_filter, Finset.mem_range] at hi ⊢
    exact ⟨hi.1, ReflTransGen.head h hi.2⟩
  · simp only [Finset.mem_filter, Finset.mem_range]
    exact ⟨lt_size_of_link? ht, .refl⟩
  · simp only [Finset.mem_filter, Finset.mem_range, not_and]
    intro _ hwv
    exact hs v (TransGen.head' h hwv)

/-! ## Resolved terms -/

/-- A link followed once; an unbound variable stays. -/
def unfold (s : Store) : Subst := fun v => (s.link? v).getD (.var v)

/-- All links of a term followed, `n` times over. -/
def expand (s : Store) : Nat → Ty → Ty
  | 0, t => t
  | n + 1, t => s.expand n (t.subst s.unfold)

/-- The term with all links followed to their ends. -/
def resolve (s : Store) (t : Ty) : Ty := s.expand s.size t

/-- No variable of the term is bound. -/
def Unlinked (s : Store) (t : Ty) : Prop := ∀ v ∈ t.vars, s.link? v = none

theorem unfold_of_link {s : Store} {v : Var} {t : Ty} (h : s.link? v = some t) :
    s.unfold v = t := by
  simp [unfold, h]

theorem unfold_of_unbound {s : Store} {v : Var} (h : s.link? v = none) :
    s.unfold v = .var v := by
  simp [unfold, h]

theorem expand_con (s : Store) (n : Nat) (c : TypeCon) (args : List Ty) :
    s.expand n (.con c args) = .con c (args.map (s.expand n)) := by
  induction n generalizing args with
  | zero => simp [expand]
  | succ n ih => simp only [expand, Ty.subst_con, ih, List.map_map, Function.comp_def]

theorem expand_eq_subst (s : Store) (n : Nat) (t : Ty) :
    s.expand n t = t.subst fun v => s.expand n (.var v) := by
  induction t with
  | var v => simp
  | con c args ih => rw [expand_con, Ty.subst_con, List.map_congr_left ih]

theorem expand_succ (s : Store) (n : Nat) (t : Ty) :
    s.expand (n + 1) t = (s.expand n t).subst s.unfold := by
  induction n generalizing t with
  | zero => rfl
  | succ n ih => rw [expand, ih, expand]

theorem Unlinked.subst_unfold {s : Store} {t : Ty} (h : s.Unlinked t) :
    t.subst s.unfold = t :=
  Ty.subst_eq_self fun v hv => unfold_of_unbound (h v hv)

/-- Each round of following links brings every bound variable one rank down. -/
theorem unlinked_expand {s : Store} (hs : s.Acyclic) (n : Nat) {t : Ty}
    (h : ∀ v ∈ t.vars, ∀ u, s.link? v = some u → s.rank v ≤ n) : s.Unlinked (s.expand n t) := by
  induction n generalizing t with
  | zero =>
      intro v hv
      cases hl : s.link? v with
      | none => rfl
      | some u =>
          have hle := h v hv u hl
          have hpos := rank_pos hl
          omega
  | succ n ih =>
      rw [expand]
      refine ih fun w hw u hu => ?_
      rw [Ty.vars_subst] at hw
      obtain ⟨v, hv, hwv⟩ := List.mem_flatMap.mp hw
      cases hl : s.link? v with
      | none =>
          rw [unfold_of_unbound hl] at hwv
          obtain rfl := List.mem_singleton.mp (by simpa using hwv)
          rw [hl] at hu
          cases hu
      | some t' =>
          rw [unfold_of_link hl] at hwv
          have hlt := rank_lt hs ⟨t', hl, hwv⟩
          have hle := h v hv t' hl
          omega

theorem unlinked_resolve {s : Store} (hs : s.Acyclic) (t : Ty) : s.Unlinked (s.resolve t) :=
  unlinked_expand hs s.size fun v _ _ _ => s.rank_le_size v

@[simp] theorem resolve_con (s : Store) (c : TypeCon) (args : List Ty) :
    s.resolve (.con c args) = .con c (args.map s.resolve) :=
  s.expand_con s.size c args

@[simp] theorem resolve_fn (s : Store) (a b : Ty) :
    s.resolve (.fn a b) = .fn (s.resolve a) (s.resolve b) := by
  simp [Ty.fn]

theorem resolve_eq_subst (s : Store) (t : Ty) :
    s.resolve t = t.subst fun v => s.resolve (.var v) :=
  s.expand_eq_subst s.size t

theorem resolve_of_unlinked {s : Store} {t : Ty} (h : s.Unlinked t) : s.resolve t = t := by
  have : ∀ n, s.expand n t = t := by
    intro n
    induction n with
    | zero => rfl
    | succ n ih => rw [expand, h.subst_unfold, ih]
  exact this s.size

theorem resolve_of_unbound {s : Store} {v : Var} (h : s.link? v = none) :
    s.resolve (.var v) = .var v := by
  refine resolve_of_unlinked fun w hw => ?_
  obtain rfl := List.mem_singleton.mp (by simpa using hw)
  exact h

theorem resolve_of_link {s : Store} (hs : s.Acyclic) {v : Var} {t : Ty}
    (h : s.link? v = some t) : s.resolve (.var v) = s.resolve t := by
  obtain ⟨n, hn⟩ : ∃ n, s.size = n + 1 :=
    Nat.exists_eq_succ_of_ne_zero (Nat.ne_zero_of_lt (lt_size_of_link? h))
  have hun : s.Unlinked (s.expand n t) := by
    refine unlinked_expand hs n fun w hw _ _ => ?_
    have hlt := rank_lt hs ⟨t, h, hw⟩
    have hle := s.rank_le_size v
    omega
  rw [resolve, resolve, hn, expand_succ s n t, hun.subst_unfold, expand, Ty.subst_var,
    unfold_of_link h]

/-- The variables of the resolved term are the unbound ones in reach. -/
theorem mem_vars_resolve {s : Store} (hs : s.Acyclic) {t : Ty} {v : Var} :
    v ∈ (s.resolve t).vars ↔ s.link? v = none ∧ ∃ w ∈ t.vars, ReflTransGen s.Points w v := by
  constructor
  · intro hv
    refine ⟨unlinked_resolve hs t v hv, ?_⟩
    have hreach : ∀ n t, v ∈ (s.expand n t).vars → ∃ w ∈ t.vars, ReflTransGen s.Points w v := by
      intro n
      induction n with
      | zero => exact fun t hv => ⟨v, hv, .refl⟩
      | succ n ih =>
          intro t hv
          obtain ⟨w, hw, hwv⟩ := ih _ hv
          rw [Ty.vars_subst] at hw
          obtain ⟨u, hu, hwu⟩ := List.mem_flatMap.mp hw
          cases hl : s.link? u with
          | none =>
              rw [unfold_of_unbound hl] at hwu
              obtain rfl := List.mem_singleton.mp (by simpa using hwu)
              exact ⟨w, hu, hwv⟩
          | some t' =>
              rw [unfold_of_link hl] at hwu
              exact ⟨u, hu, hwv.head ⟨t', hl, hwu⟩⟩
    exact hreach s.size t hv
  · rintro ⟨hv, w, hw, hwv⟩
    have hvar : v ∈ (s.resolve (.var w)).vars := by
      induction hwv using ReflTransGen.head_induction_on generalizing t with
      | refl => simp [resolve_of_unbound hv]
      | head hstep _ ih =>
          obtain ⟨t', hl, hmem⟩ := hstep
          rw [resolve_of_link hs hl, resolve_eq_subst, Ty.vars_subst]
          exact List.mem_flatMap.mpr ⟨_, hmem, ih hmem⟩
    rw [resolve_eq_subst, Ty.vars_subst]
    exact List.mem_flatMap.mpr ⟨w, hw, hvar⟩

theorem WellFormed.covers_resolve {s : Store} (hs : s.WellFormed) {t : Ty} (ht : s.Covers t) :
    s.Covers (s.resolve t) := by
  intro v hv
  obtain ⟨-, w, hw, hwv⟩ := (mem_vars_resolve hs.acyclic).mp hv
  cases hwv with
  | refl => exact ht v hw
  | tail _ hstep =>
      obtain ⟨t', hl, hmem⟩ := hstep
      exact hs.closed hl v hmem

/-! ## Depth -/

/-- What is in reach of a variable resolves to a part of what the variable resolves to. -/
theorem height_resolve_le_of_reach {s : Store} (hs : s.Acyclic) {v w : Var}
    (h : ReflTransGen s.Points v w) :
    (s.resolve (.var w)).height ≤ (s.resolve (.var v)).height := by
  induction h using ReflTransGen.head_induction_on with
  | refl => exact Nat.le_refl _
  | head hstep _ ih =>
      obtain ⟨t, hl, hmem⟩ := hstep
      rw [resolve_of_link hs hl, resolve_eq_subst s t]
      exact Nat.le_trans ih
        (Ty.height_le_of_mem_vars (fun v => s.resolve (.var v)) hmem)

/-- No link is to a term higher than `n`. -/
def HeightLe (s : Store) (n : Nat) : Prop := ∀ v t, s.link? v = some t → t.height ≤ n

theorem heightLe_height (s : Store) : s.HeightLe s.height := by
  intro v t h
  obtain ⟨c, hc, hl⟩ := Option.bind_eq_some_iff.mp h
  obtain ⟨hi, rfl⟩ := Array.getElem?_eq_some_iff.mp hc
  exact Ty.height_le_heights
    (List.mem_filterMap.mpr ⟨_, Array.mem_toList_iff.mpr (Array.getElem_mem hi), hl⟩)

theorem HeightLe.mono {s : Store} {m n : Nat} (h : s.HeightLe m) (hmn : m ≤ n) : s.HeightLe n :=
  fun v t hl => Nat.le_trans (h v t hl) hmn

theorem HeightLe.resolve_le {s : Store} {n : Nat} (hs : s.HeightLe n) {t : Ty}
    (ht : t.height ≤ n) : (s.resolve t).height ≤ (s.size + 1) * n := by
  have hun : ∀ v, (s.unfold v).height ≤ n := by
    intro v
    cases hl : s.link? v with
    | none => simp [unfold_of_unbound hl]
    | some u => rw [unfold_of_link hl]; exact hs v u hl
  have hexp : ∀ k, (s.expand k t).height ≤ t.height + k * n := by
    intro k
    induction k with
    | zero => simp [expand]
    | succ k ih =>
        have := Ty.height_subst_le hun (s.expand k t)
        rw [expand_succ, Nat.succ_mul]
        omega
  have := hexp s.size
  rw [Nat.succ_mul, resolve]
  omega

/-- The bound that walks are given exceeds the depth of what they walk over. -/
theorem height_resolve_lt_budget (s : Store) {t : Ty} {ts : List Ty} (h : t ∈ ts) :
    (s.resolve t).height < s.budget ts :=
  Nat.lt_succ_of_le <| (s.heightLe_height.mono (Nat.le_max_left ..)).resolve_le <|
    Nat.le_trans (Ty.height_le_heights h) (Nat.le_max_right ..)

/-! ## Solutions -/

/-- The substitution gives every bound variable the value of its link. -/
def SolvedBy (s : Store) (θ : Subst) : Prop := ∀ v t, s.link? v = some t → θ v = t.subst θ

/-- Following the links of a term keeps its value, if the equations in reach of it hold. -/
theorem subst_resolve_of_reach {s : Store} {θ : Subst} {t : Ty}
    (h : ∀ w ∈ t.vars, ∀ v u, ReflTransGen s.Points w v → s.link? v = some u →
      θ v = u.subst θ) : (s.resolve t).subst θ = t.subst θ := by
  suffices hexp : ∀ n, (s.expand n t).subst θ = t.subst θ from hexp s.size
  intro n
  induction n generalizing t with
  | zero => rfl
  | succ n ih =>
      rw [expand, ih, Ty.subst_subst]
      · refine Ty.subst_congr fun w hw => ?_
        cases hl : s.link? w with
        | none => simp [unfold_of_unbound hl]
        | some u => rw [unfold_of_link hl, h w hw w u .refl hl]
      · intro w hw v u hwv
        rw [Ty.vars_subst] at hw
        obtain ⟨x, hx, hwx⟩ := List.mem_flatMap.mp hw
        cases hl : s.link? x with
        | none =>
            rw [unfold_of_unbound hl] at hwx
            obtain rfl := List.mem_singleton.mp (by simpa using hwx)
            exact h w hx v u hwv
        | some t' =>
            rw [unfold_of_link hl] at hwx
            exact h x hx v u (hwv.head ⟨t', hl, hwx⟩)

theorem SolvedBy.subst_resolve {s : Store} {θ : Subst} (h : s.SolvedBy θ) (t : Ty) :
    (s.resolve t).subst θ = t.subst θ :=
  subst_resolve_of_reach fun _ _ v u _ => h v u

theorem solvedBy_resolve {s : Store} (hs : s.Acyclic) :
    s.SolvedBy fun v => s.resolve (.var v) := by
  intro v t h
  rw [← resolve_eq_subst]
  exact resolve_of_link hs h

theorem SolvedBy.comp {s : Store} {θ : Subst} (h : s.SolvedBy θ) (ψ : Subst) :
    s.SolvedBy fun v => (θ v).subst ψ := by
  intro v t hl
  change (θ v).subst ψ = _
  rw [h v t hl, Ty.subst_subst]

/-- Any choice of values for the unbound variables gives a solution. -/
theorem solvedBy_resolve_comp {s : Store} (hs : s.Acyclic) (ψ : Subst) :
    s.SolvedBy fun v => (s.resolve (.var v)).subst ψ :=
  (solvedBy_resolve hs).comp ψ

theorem subst_resolve_comp (s : Store) (ψ : Subst) (t : Ty) :
    t.subst (fun v => (s.resolve (.var v)).subst ψ) = (s.resolve t).subst ψ := by
  rw [resolve_eq_subst s t, Ty.subst_subst]

/-- Two solutions agree on a term exactly when they agree on the variables of its resolved form. -/
theorem SolvedBy.subst_eq_iff {s : Store} {θ φ : Subst} (hθ : s.SolvedBy θ) (hφ : s.SolvedBy φ)
    {t : Ty} : t.subst θ = t.subst φ ↔ ∀ v ∈ (s.resolve t).vars, θ v = φ v := by
  rw [← hθ.subst_resolve, ← hφ.subst_resolve]
  exact ⟨Ty.eq_of_subst_eq, Ty.subst_congr⟩

end Store

end Overload
