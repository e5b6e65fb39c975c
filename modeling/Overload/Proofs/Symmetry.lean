import Mathlib.Data.List.Zip
import Overload.Proofs.TwoRuns

/-!
# Unification is symmetric

Unifying two terms one way and the other way round links different variables, so the stores soon
have different links. What they keep in common is their solutions (`Store.Equivalent`): the same
terms are equal in both, and the resolved forms differ in the choice of a variable among equal ones
only. The two runs are followed side by side (`unifyWithin_symmetric`). That a pair of arguments is
settled in one run exactly when it is in the other follows from what unification solves, so only
failing runs have to be looked into: they stop at the same pair, with the same error, and what was
linked before is the same set of equations.
-/

namespace Overload

namespace Store

variable {s₁ s₂ s₁' s₂' : Store}

/-- Stores with the same solutions. -/
structure Equivalent (s₁ s₂ : Store) : Prop where
  left : s₁.WellFormed
  right : s₂.WellFormed
  solved_iff : ∀ θ, s₁.SolvedBy θ ↔ s₂.SolvedBy θ

namespace Equivalent

theorem refl {s : Store} (hs : s.WellFormed) : s.Equivalent s := ⟨hs, hs, fun _ => .rfl⟩

theorem symm (h : s₁.Equivalent s₂) : s₂.Equivalent s₁ :=
  ⟨h.right, h.left, fun θ => (h.solved_iff θ).symm⟩

/-- Equations that say the same over the solutions are added. -/
theorem adds (h : s₁.Equivalent s₂) {es fs : List (Ty × Ty)} (h₁ : s₁.Adds es s₁')
    (h₂ : s₂.Adds fs s₂') (heq : ∀ θ, s₁.SolvedBy θ → (Solves θ es ↔ Solves θ fs)) :
    s₁'.Equivalent s₂' where
  left := h₁.wellFormed
  right := h₂.wellFormed
  solved_iff θ := by
    rw [h₁.solved_iff, h₂.solved_iff, ← h.solved_iff]
    exact and_congr_right (heq θ)

theorem quiet (h : s₁.Equivalent s₂) (h₁ : s₁.Quiet s₁') (h₂ : s₂.Quiet s₂') :
    s₁'.Equivalent s₂' :=
  h.adds h₁.adds_nil h₂.adds_nil fun _ _ => .rfl

theorem resolve_resolve (h : s₁.Equivalent s₂) (t : Ty) :
    s₂.resolve (s₁.resolve t) = s₂.resolve t := by
  have hsol := (h.solved_iff _).mpr (solvedBy_resolve h.right.acyclic)
  rw [resolve_eq_subst s₂ (s₁.resolve t), hsol.subst_resolve, ← resolve_eq_subst]

/-- What is equal in one store is equal in the other. -/
theorem resolve_eq (h : s₁.Equivalent s₂) {t u : Ty} (htu : s₁.resolve t = s₁.resolve u) :
    s₂.resolve t = s₂.resolve u := by
  rw [← h.resolve_resolve t, htu, h.resolve_resolve]

theorem equal_eq (h : s₁.Equivalent s₂) (t u : Ty) : (t.equal u s₁).1 = (t.equal u s₂).1 := by
  rw [((reads_equal h.left t u).here h.left).1, ((reads_equal h.right t u).here h.right).1]
  exact decide_eq_decide.mpr ⟨h.resolve_eq, h.symm.resolve_eq⟩

/-- Terms that are equal have representatives, one in each store, that are both variables or the
same constructor on equal arguments. -/
theorem heads (h : s₁.Equivalent s₂) {t₁ t₂ r₁ r₂ : Ty} (ht : s₁.resolve t₁ = s₁.resolve t₂)
    (h₁ : s₁.Represents t₁ r₁) (h₂ : s₂.Represents t₂ r₂) :
    (∃ v w, r₁ = .var v ∧ r₂ = .var w)
      ∨ ∃ c as bs, r₁ = .con c as ∧ r₂ = .con c bs
          ∧ List.Forall₂ (fun a b => s₁.resolve a = s₁.resolve b) as bs := by
  have hr : s₁.resolve r₁ = s₁.resolve r₂ := by
    rw [h₁.resolve_eq, ht]
    exact h.symm.resolve_eq h₂.resolve_eq.symm
  cases r₁ with
  | var v =>
      cases r₂ with
      | var w => exact .inl ⟨v, w, rfl, rfl⟩
      | con c bs =>
          rw [resolve_of_unbound h₁.representative, resolve_con] at hr
          cases hr
  | con c as =>
      cases r₂ with
      | var w =>
          -- in its own store the variable would resolve to a constructor
          have hr₂ := h.resolve_eq hr
          rw [resolve_of_unbound h₂.representative, resolve_con] at hr₂
          cases hr₂
      | con d bs =>
          rw [resolve_con, resolve_con] at hr
          obtain ⟨rfl, hargs⟩ := Ty.con.inj hr
          refine .inr ⟨c, as, bs, rfl, rfl, ?_⟩
          rwa [← List.forall₂_eq_eq_eq, List.forall₂_map_left_iff,
            List.forall₂_map_right_iff] at hargs

/-- Representatives of equal terms have the same values. -/
theorem subst_eq (h : s₁.Equivalent s₂) {t₁ t₂ r₁ r₂ : Ty} (ht : s₁.resolve t₁ = s₁.resolve t₂)
    (h₁ : s₁.Represents t₁ r₁) (h₂ : s₂.Represents t₂ r₂) {θ : Subst} (hθ : s₁.SolvedBy θ) :
    r₁.subst θ = r₂.subst θ := by
  rw [h₁.subst_eq hθ, h₂.subst_eq ((h.solved_iff θ).mp hθ), ← hθ.subst_resolve t₁, ht,
    hθ.subst_resolve]

end Equivalent

end Store

/-! ## The two runs -/

section

variable {s₁ s₂ : Store} {σ₁ σ₂ : Session}

/-- Two variables are bound so that the same equation is added, or neither is. -/
theorem bind_symmetric (hs : s₁.Equivalent s₂) {v w : Var} {r₁ r₂ : Ty} (h₁ : s₁.MayBind v r₁)
    (h₂ : s₂.MayBind w r₂)
    (heq : ∀ θ, s₁.SolvedBy θ → (Solves θ [(.var v, r₁)] ↔ Solves θ [(.var w, r₂)]))
    (hσ₁ : s₁.Quiet σ₁.store) (hσ₂ : s₂.Quiet σ₂.store) :
    Matched Store.Equivalent (v.bind r₁) σ₁ (w.bind r₂) σ₂ fun _ _ _ _ => True := by
  have hspec₁ := bind_spec hs.left (s₁.heightLe_height.mono (Nat.le_max_left ..)) h₁.unbound
    h₁.lt_size h₁.representative h₁.covers (Nat.le_max_right ..) hσ₁
  have hspec₂ := bind_spec hs.right (s₂.heightLe_height.mono (Nat.le_max_left ..)) h₂.unbound
    h₂.lt_size h₂.representative h₂.covers (Nat.le_max_right ..) hσ₂
  cases hx₁ : v.bind r₁ σ₁ with
  | ok u₁ σ₁' =>
      have hadds₁ := (hspec₁.of_ok hx₁).1
      cases hx₂ : w.bind r₂ σ₂ with
      | ok u₂ σ₂' => exact .ok hx₁ hx₂ (hs.adds hadds₁ (hspec₂.of_ok hx₂).1 heq) trivial
      | error e₂ σ₂' =>
          obtain ⟨hθ, hsol⟩ :=
            (hadds₁.solved_iff _).mp (Store.solvedBy_resolve hadds₁.wellFormed.acyclic)
          have hno := (hspec₂.of_error hx₂).2.1 _ ((hs.solved_iff _).mp hθ)
          exact absurd ((heq _ hθ).mp hsol) hno
  | error e₁ σ₁' =>
      obtain ⟨hq₁, hno, var₁, ty₁, rfl⟩ := hspec₁.of_error hx₁
      cases hx₂ : w.bind r₂ σ₂ with
      | ok u₂ σ₂' =>
          have hadds₂ := (hspec₂.of_ok hx₂).1
          obtain ⟨hθ, hsol⟩ :=
            (hadds₂.solved_iff _).mp (Store.solvedBy_resolve hadds₂.wellFormed.acyclic)
          have hθ₁ := (hs.solved_iff _).mpr hθ
          exact absurd ((heq _ hθ₁).mpr hsol) (hno _ hθ₁)
      | error e₂ σ₂' =>
          obtain ⟨hq₂, -, var₂, ty₂, rfl⟩ := hspec₂.of_error hx₂
          exact .error hx₁ hx₂ (hs.quiet hq₁ hq₂) (.recursive ..)

/-- Where single equations are treated alike, so are several in turn. -/
theorem forM_symmetric {H₁ H₂ n₁ n₂ : Nat}
    (hone : ∀ {l₁ r₁ l₂ r₂ σ₁ σ₂}, σ₁.store.Equivalent σ₂.store → σ₁.store.HeightLe H₁ →
      σ₂.store.HeightLe H₂ → σ₁.store.Ready H₁ n₁ l₁ r₁ → σ₂.store.Ready H₂ n₂ r₂ l₂ →
      σ₁.store.resolve l₁ = σ₁.store.resolve l₂ → σ₁.store.resolve r₁ = σ₁.store.resolve r₂ →
      Matched Store.Equivalent (unifyWithin n₁ l₁ r₁) σ₁ (unifyWithin n₂ r₂ l₂) σ₂
        fun _ _ _ _ => True)
    {eqs₁ eqs₂ : List (Ty × Ty)} (hs : σ₁.store.Equivalent σ₂.store)
    (hH₁ : σ₁.store.HeightLe H₁) (hH₂ : σ₂.store.HeightLe H₂)
    (hready₁ : ∀ q ∈ eqs₁, σ₁.store.Ready H₁ n₁ q.1 q.2)
    (hready₂ : ∀ q ∈ eqs₂, σ₂.store.Ready H₂ n₂ q.1 q.2)
    (hsame : List.Forall₂ (fun q₁ q₂ => σ₁.store.resolve q₁.1 = σ₁.store.resolve q₂.2
      ∧ σ₁.store.resolve q₁.2 = σ₁.store.resolve q₂.1) eqs₁ eqs₂) :
    Matched Store.Equivalent (eqs₁.forM fun (a, b) => unifyWithin n₁ a b) σ₁
      (eqs₂.forM fun (a, b) => unifyWithin n₂ a b) σ₂ fun _ _ _ _ => True := by
  induction eqs₁ generalizing eqs₂ σ₁ σ₂ with
  | nil =>
      cases hsame
      exact .pure hs trivial
  | cons q₁ eqs₁ ih =>
      cases hsame with
      | @cons _ q₂ _ eqs₂ hq hrest =>
          obtain ⟨hr₁, hrs₁⟩ := List.forall_mem_cons.mp hready₁
          obtain ⟨hr₂, hrs₂⟩ := List.forall_mem_cons.mp hready₂
          have hfirst := (hone hs hH₁ hH₂ hr₁ hr₂ hq.1 hq.2).and_ends
            (A := fun _ s => σ₁.store.Adds _ s ∧ s.HeightLe H₁)
            (B := fun _ s => σ₂.store.Adds _ s ∧ s.HeightLe H₂)
            (unifyWithin_settles n₁ hs.left hH₁ hr₁) (unifyWithin_settles n₂ hs.right hH₂ hr₂)
          refine hfirst.bind fun _ _ σ₁' σ₂' hs' h => ?_
          obtain ⟨-, ⟨hadds₁, hH₁'⟩, hadds₂, hH₂'⟩ := h
          refine ih hs' hH₁' hH₂' (fun q hq => ?_) (fun q hq => ?_) ?_
          · exact (hrs₁ q hq).extend hadds₁.toExtends hadds₁.size_eq
          · exact (hrs₂ q hq).extend hadds₂.toExtends hadds₂.size_eq
          · exact hrest.imp fun _ _ h =>
              ⟨hadds₁.toExtends.resolve_eq h.1, hadds₁.toExtends.resolve_eq h.2⟩

/-- Equal equations, one the other way round, are treated alike in equivalent stores. -/
theorem unifyWithin_symmetric {H₁ H₂ : Nat} (n₁ n₂ : Nat) {l₁ r₁ l₂ r₂ : Ty}
    (hs : σ₁.store.Equivalent σ₂.store) (hH₁ : σ₁.store.HeightLe H₁)
    (hH₂ : σ₂.store.HeightLe H₂) (h₁ : σ₁.store.Ready H₁ n₁ l₁ r₁)
    (h₂ : σ₂.store.Ready H₂ n₂ r₂ l₂) (hl : σ₁.store.resolve l₁ = σ₁.store.resolve l₂)
    (hr : σ₁.store.resolve r₁ = σ₁.store.resolve r₂) :
    Matched Store.Equivalent (unifyWithin n₁ l₁ r₁) σ₁ (unifyWithin n₂ r₂ l₂) σ₂
      fun _ _ _ _ => True := by
  induction n₁ generalizing n₂ l₁ r₁ l₂ r₂ σ₁ σ₂ with
  | zero => exact absurd (h₁.deep.pos hH₁) (Nat.lt_irrefl 0)
  | succ n₁ ih =>
      cases n₂ with
      | zero => exact absurd (h₂.deep.pos hH₂) (Nat.lt_irrefl 0)
      | succ n₂ =>
          rw [unifyWithin, unifyWithin]
          refine .reads (Store.reads_prune hs.left l₁) (Store.reads_prune hs.right r₂)
            (.refl hs.left) (.refl hs.right) fun l₁' r₂' _ _ hl₁ hr₂ hq₁ hq₂ => ?_
          refine .reads (Store.reads_prune hs.left r₁) (Store.reads_prune hs.right l₂) hq₁ hq₂
            fun r₁' l₂' _ _ hr₁ hl₂ hq₁ hq₂ => ?_
          refine announce_matched hs.left hs.right hq₁ hq₂ _ _ _ _ fun σ₁' σ₂' hq₁ hq₂ => ?_
          have hlcov₁ := hl₁.covers h₁.covers_left
          have hrcov₁ := hr₁.covers h₁.covers_right
          have hlcov₂ := hl₂.covers h₂.covers_right
          have hrcov₂ := hr₂.covers h₂.covers_left
          have hvalue : ∀ {θ}, σ₁.store.SolvedBy θ → l₁'.subst θ = l₂'.subst θ
              ∧ r₁'.subst θ = r₂'.subst θ :=
            fun hθ => ⟨hs.subst_eq hl hl₁ hl₂ hθ, hs.subst_eq hr hr₁ hr₂ hθ⟩
          rcases hs.heads hl hl₁ hl₂ with ⟨v, w, rfl, rfl⟩ | ⟨c, las, lbs, rfl, rfl, hlargs⟩
          · rcases hs.heads hr hr₁ hr₂ with ⟨x, y, rfl, rfl⟩ | ⟨d, ras, rbs, rfl, rfl, hrargs⟩
            · refine bind_symmetric hs
                ⟨hl₁.representative, Store.covers_var.mp hlcov₁, hr₁.representative, hrcov₁⟩
                ⟨hr₂.representative, Store.covers_var.mp hrcov₂, hl₂.representative, hlcov₂⟩
                (fun θ hθ => ?_) hq₁ hq₂
              rw [solves_singleton, solves_singleton, (hvalue hθ).1, (hvalue hθ).2, eq_comm]
            · refine .bind_right (announce_ends hs.right hq₂ _ _) fun _ _ hq₂ => ?_
              refine bind_symmetric hs
                ⟨hl₁.representative, Store.covers_var.mp hlcov₁, trivial, hrcov₁⟩
                ⟨hl₂.representative, Store.covers_var.mp hlcov₂, trivial, hrcov₂⟩
                (fun θ hθ => ?_) hq₁ hq₂
              rw [solves_singleton, solves_singleton, (hvalue hθ).1, (hvalue hθ).2]
          · rcases hs.heads hr hr₁ hr₂ with ⟨x, y, rfl, rfl⟩ | ⟨d, ras, rbs, rfl, rfl, hrargs⟩
            · refine .bind_left (announce_ends hs.left hq₁ _ _) fun _ _ hq₁ => ?_
              refine bind_symmetric hs
                ⟨hr₁.representative, Store.covers_var.mp hrcov₁, trivial, hlcov₁⟩
                ⟨hr₂.representative, Store.covers_var.mp hrcov₂, trivial, hlcov₂⟩
                (fun θ hθ => ?_) hq₁ hq₂
              rw [solves_singleton, solves_singleton, (hvalue hθ).1, (hvalue hθ).2]
            · have hlen : c = d ∧ las.length = ras.length ↔ d = c ∧ rbs.length = lbs.length := by
                rw [hlargs.length_eq, hrargs.length_eq, eq_comm, eq_comm (a := lbs.length)]
              dsimp only
              by_cases h : c = d ∧ las.length = ras.length
              · rw [if_pos h, if_pos (hlen.mp h)]
                refine forM_symmetric (ih n₂) (hs.quiet hq₁ hq₂) (hq₁.height_le H₁ hH₁)
                  (hq₂.height_le H₂ hH₂) (fun q hq => ?_) (fun q hq => ?_) ?_
                · exact (h₁.args hH₁ hl₁ hr₁ hq).extend hq₁.toAlike.extends hq₁.size_eq
                · exact (h₂.args hH₂ hr₂ hl₂ hq).extend hq₂.toAlike.extends hq₂.size_eq
                · rw [← List.zip_swap lbs rbs, List.forall₂_map_right_iff]
                  refine (forall₂_zip_zip hlargs hrargs).imp fun _ _ h => ?_
                  exact ⟨hq₁.toAlike.extends.resolve_eq h.1, hq₁.toAlike.extends.resolve_eq h.2⟩
              · rw [if_neg h, if_neg (mt hlen.mpr h)]
                refine .reads (Store.reads_display hs.left _) (Store.reads_display hs.right _)
                  hq₁ hq₂ fun _ _ _ _ _ _ hq₁ hq₂ => ?_
                refine .reads (Store.reads_display hs.left _) (Store.reads_display hs.right _)
                  hq₁ hq₂ fun _ _ _ _ _ _ hq₁ hq₂ => ?_
                exact .throw (hs.quiet hq₁ hq₂) (.mismatch ..)

end

/-- Unifying two terms and unifying them the other way round both succeed or both fail, and then
with the same kind of error. Either way the same terms are equal afterwards, also where links were
made before a failure. -/
theorem unify_symmetric {σ₁ σ₂ : Session} {l r : Ty} (hσ : σ₁.store = σ₂.store)
    (hs : σ₁.store.WellFormed) (hl : σ₁.store.Covers l) (hr : σ₁.store.Covers r) :
    (∃ σ₁' σ₂', unify l r σ₁ = .ok () σ₁' ∧ unify r l σ₂ = .ok () σ₂'
      ∧ ∀ t u : Ty, (t.equal u σ₁'.store).1 = (t.equal u σ₂'.store).1)
    ∨ ∃ e₁ e₂ σ₁' σ₂', unify l r σ₁ = .error e₁ σ₁' ∧ unify r l σ₂ = .error e₂ σ₂'
      ∧ e₁.IsClash ∧ e₁.Like e₂
      ∧ ∀ t u : Ty, (t.equal u σ₁'.store).1 = (t.equal u σ₂'.store).1 := by
  have hequiv : σ₁.store.Equivalent σ₂.store := hσ ▸ .refl hs
  have hmatched := unifyWithin_symmetric _ _ hequiv
    (σ₁.store.heightLe_height.mono (Nat.le_max_left ..))
    (σ₂.store.heightLe_height.mono (Nat.le_max_left ..)) (Store.ready_budget hl hr)
    (Store.ready_budget (hσ ▸ hr) (hσ ▸ hl)) rfl rfl
  cases hmatched with
  | ok h₁ h₂ h _ => exact .inl ⟨_, _, h₁, h₂, h.equal_eq⟩
  | error h₁ h₂ h hlike =>
      have hclash := (Ends.of_error (unify_settles hs hl hr) h₁).2
      exact .inr ⟨_, _, _, _, h₁, h₂, hclash, hlike, h.equal_eq⟩

/-- `#1 -> Int` and `#2 -> Bool`: the first variable is linked to the second, or the second to the
first, before the results clash. -/
theorem unify_symmetric_sample :
    let l := Ty.fn (.var ⟨1⟩) (.nullary .int)
    let r := Ty.fn (.var ⟨2⟩) (.nullary .bool)
    let σ : Session := { store := Store.sample }
    ∃ e₁ e₂ σ₁ σ₂, unify l r σ = .error e₁ σ₁ ∧ unify r l σ = .error e₂ σ₂
      ∧ σ₁.store.isBound ⟨1⟩ = true ∧ σ₂.store.isBound ⟨1⟩ = false ∧ e₁.IsClash ∧ e₁.Like e₂
      ∧ ∀ t u : Ty, (t.equal u σ₁.store).1 = (t.equal u σ₂.store).1 := by
  intro l r σ
  obtain ⟨e₁, σ₁, h₁, hleft⟩ : Fails (unify l r σ) fun _ σ' => σ'.store.isBound ⟨1⟩ = true := by
    decide +kernel
  obtain ⟨e₂, σ₂, h₂, hright⟩ : Fails (unify r l σ) fun _ σ' => σ'.store.isBound ⟨1⟩ = false := by
    decide +kernel
  rcases unify_symmetric (rfl : σ.store = σ.store) Store.sample_wellFormed
    (Store.sample_covers_fn 1 .int (by decide)) (Store.sample_covers_fn 2 .bool (by decide)) with
    ⟨σ₁', σ₂', h₁', -⟩ | ⟨e₁', e₂', σ₁', σ₂', h₁', h₂', hsame⟩
  · cases h₁.symm.trans h₁'
  · cases h₁.symm.trans h₁'
    cases h₂.symm.trans h₂'
    exact ⟨e₁, e₂, σ₁, σ₂, h₁, h₂, hleft, hright, hsame⟩

end Overload
