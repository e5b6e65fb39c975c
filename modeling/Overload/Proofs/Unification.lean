import Overload.Proofs.Outcome

/-!
# Unification is most general

A store is a set of equations, and unifying two terms adds theirs: if it succeeds, the solutions of
the new store are those solutions of the old one that make the two terms the same, and if it fails
there is no such solution (`unify_settles`). Both halves are carried by one statement, `Settles`,
about any list of equations, so that the loop over the arguments of a constructor is the same
statement again.

Unification is given a bound on its depth, computed before the first link is made, while the terms
that it walks over get deeper with each link. `Deep` is why the bound is enough all the same: every
place it reaches lies below a term that was there before, as many constructors down as have been
counted off the bound, and a term without cycles is never deeper than the bound
(`HeightLe.resolve_le`), whatever gets linked on the way.
-/

namespace Overload

/-- The substitution makes the sides of every equation equal. -/
def Solves (θ : Subst) (eqs : List (Ty × Ty)) : Prop := ∀ p ∈ eqs, p.1.subst θ = p.2.subst θ

@[simp] theorem solves_nil (θ : Subst) : Solves θ [] := fun _ h => (List.not_mem_nil h).elim

@[simp] theorem solves_singleton {θ : Subst} {l r : Ty} :
    Solves θ [(l, r)] ↔ l.subst θ = r.subst θ := by
  simp [Solves]

theorem solves_append {θ : Subst} {es fs : List (Ty × Ty)} :
    Solves θ (es ++ fs) ↔ Solves θ es ∧ Solves θ fs := by
  simp only [Solves, List.mem_append]
  exact ⟨fun h => ⟨fun p hp => h p (.inl hp), fun p hp => h p (.inr hp)⟩,
    fun h p hp => hp.elim (h.1 p) (h.2 p)⟩

theorem solves_zip {θ : Subst} {as bs : List Ty} (h : as.length = bs.length) :
    Solves θ (as.zip bs) ↔ as.map (Ty.subst θ) = bs.map (Ty.subst θ) := by
  induction as generalizing bs with
  | nil =>
      cases bs with
      | nil => simp
      | cons b bs => cases h
  | cons a as ih =>
      cases bs with
      | nil => cases h
      | cons b bs =>
          have ih := ih (Nat.succ.inj h)
          rw [List.zip_cons_cons, ← List.singleton_append, solves_append, solves_singleton, ih,
            List.map_cons, List.map_cons, List.cons.injEq]

/-- The two substitutions give each side of every equation the same value. -/
def Agree (φ θ : Subst) (eqs : List (Ty × Ty)) : Prop :=
  ∀ p ∈ eqs, p.1.subst φ = p.1.subst θ ∧ p.2.subst φ = p.2.subst θ

@[simp] theorem agree_singleton {φ θ : Subst} {l r : Ty} :
    Agree φ θ [(l, r)] ↔ l.subst φ = l.subst θ ∧ r.subst φ = r.subst θ := by
  simp [Agree]

theorem Solves.of_agree {φ θ : Subst} {eqs : List (Ty × Ty)} (h : Solves θ eqs)
    (hag : Agree φ θ eqs) : Solves φ eqs := fun p hp => by
  rw [(hag p hp).1, (hag p hp).2, h p hp]

namespace Store

/-- The solutions of `s'` are those of `s` that solve the equations too. -/
structure Adds (s : Store) (eqs : List (Ty × Ty)) (s' : Store) : Prop extends Evolves s s' where
  size_eq : s'.size = s.size
  solved_iff : ∀ θ, s'.SolvedBy θ ↔ s.SolvedBy θ ∧ Solves θ eqs

theorem Quiet.adds_nil {s s' : Store} (h : s.Quiet s') : s.Adds [] s' where
  toEvolves := h.toAlike.evolves
  size_eq := h.size_eq
  solved_iff θ := by simp [h.solved_iff]

theorem Adds.trans {s₁ s₂ s₃ : Store} {es fs : List (Ty × Ty)} (h : s₁.Adds es s₂)
    (h' : s₂.Adds fs s₃) : s₁.Adds (es ++ fs) s₃ where
  toEvolves := h.toEvolves.trans h'.toEvolves
  size_eq := h'.size_eq.trans h.size_eq
  solved_iff θ := by rw [h'.solved_iff, h.solved_iff, solves_append, and_assoc]

/-- What failing to add the equations leaves behind: no solution of `s` solves them all, and the
links made before depend on the values of their sides only. -/
structure Rejects (s : Store) (eqs : List (Ty × Ty)) (s' : Store) : Prop extends Evolves s s' where
  unsolvable : ∀ θ, s.SolvedBy θ → ¬Solves θ eqs
  confined : ∀ θ φ, s'.SolvedBy θ → s.SolvedBy φ → Agree φ θ eqs → s'.SolvedBy φ

theorem Quiet.rejects {s s' : Store} {eqs : List (Ty × Ty)} (h : s.Quiet s')
    (hno : ∀ θ, s.SolvedBy θ → ¬Solves θ eqs) : s.Rejects eqs s' where
  toEvolves := h.toAlike.evolves
  unsolvable := hno
  confined _ φ _ hφ _ := (h.solved_iff φ).mpr hφ

theorem Rejects.append {s s' : Store} {es : List (Ty × Ty)} (h : s.Rejects es s')
    (fs : List (Ty × Ty)) : s.Rejects (es ++ fs) s' where
  toEvolves := h.toEvolves
  unsolvable θ hθ hsol := h.unsolvable θ hθ (solves_append.mp hsol).1
  confined θ φ hθ hφ hag := h.confined θ φ hθ hφ fun p hp => hag p (List.mem_append_left _ hp)

theorem Adds.rejects {s₁ s₂ s₃ : Store} {es fs : List (Ty × Ty)} (h : s₁.Adds es s₂)
    (h' : s₂.Rejects fs s₃) : s₁.Rejects (es ++ fs) s₃ where
  toEvolves := h.toEvolves.trans h'.toEvolves
  unsolvable θ hθ hsol := by
    obtain ⟨hes, hfs⟩ := solves_append.mp hsol
    exact h'.unsolvable θ ((h.solved_iff θ).mpr ⟨hθ, hes⟩) hfs
  confined θ φ hθ hφ hag := by
    have hes := ((h.solved_iff θ).mp (h'.solved θ hθ)).2
    have hφ₂ : s₂.SolvedBy φ := (h.solved_iff φ).mpr
      ⟨hφ, hes.of_agree fun p hp => hag p (List.mem_append_left _ hp)⟩
    exact h'.confined θ φ hθ hφ₂ fun p hp => hag p (List.mem_append_right _ hp)

/-- Over the solutions of the store the two lists of equations say the same. -/
structure SameEqs (s : Store) (es fs : List (Ty × Ty)) : Prop where
  solves : ∀ θ, s.SolvedBy θ → (Solves θ es ↔ Solves θ fs)
  agree : ∀ θ φ, s.SolvedBy θ → s.SolvedBy φ → Agree φ θ fs → Agree φ θ es

/-- Applied constructors are equal exactly when their arguments are. -/
theorem sameEqs_args (s : Store) (c : TypeCon) {as bs : List Ty} (h : as.length = bs.length) :
    s.SameEqs (as.zip bs) [(.con c as, .con c bs)] := by
  refine ⟨fun θ _ => ?_, fun θ φ _ _ hag p hp => ?_⟩
  · rw [solves_zip h, solves_singleton, Ty.subst_con, Ty.subst_con, Ty.con.injEq,
      and_iff_right rfl]
  · obtain ⟨has, hbs⟩ := agree_singleton.mp hag
    rw [Ty.subst_con, Ty.subst_con, Ty.con.injEq, and_iff_right rfl] at has hbs
    obtain ⟨ha, hb⟩ := List.of_mem_zip hp
    exact ⟨List.map_inj_left.mp has _ ha, List.map_inj_left.mp hbs _ hb⟩

theorem Adds.congr {s s' : Store} {es fs : List (Ty × Ty)} (h : s.Adds es s')
    (heq : s.SameEqs es fs) : s.Adds fs s' where
  toEvolves := h.toEvolves
  size_eq := h.size_eq
  solved_iff θ := by
    rw [h.solved_iff]
    exact and_congr_right (heq.solves θ)

theorem Rejects.congr {s s' : Store} {es fs : List (Ty × Ty)} (h : s.Rejects es s')
    (heq : s.SameEqs es fs) : s.Rejects fs s' where
  toEvolves := h.toEvolves
  unsolvable θ hθ hsol := h.unsolvable θ hθ ((heq.solves θ hθ).mpr hsol)
  confined θ φ hθ hφ hag := h.confined θ φ hθ hφ (heq.agree θ φ (h.solved θ hθ) hφ hag)

/-- A term has the values of its representative. -/
theorem Represents.subst_eq {s : Store} {t r : Ty} (h : s.Represents t r) {θ : Subst}
    (hθ : s.SolvedBy θ) : r.subst θ = t.subst θ := by
  rw [← hθ.subst_resolve r, h.resolve_eq, hθ.subst_resolve]

/-! ## Depth -/

/-- `t` is below a term of height at most `H`, links followed, and `n` is what is left of the bound
at that place. -/
def Deep (s : Store) (H n : Nat) (t : Ty) : Prop :=
  ∃ top k, top.height ≤ H ∧ Ty.Under (s.resolve top) k (s.resolve t)
    ∧ (s.size + 1) * H + 1 ≤ n + k

theorem Deep.pos {s : Store} {H n : Nat} {t : Ty} (h : s.Deep H n t) (hs : s.HeightLe H) :
    0 < n := by
  obtain ⟨top, k, htop, hunder, hn⟩ := h
  have hk := hunder.height_le
  have hle := hs.resolve_le htop
  omega

theorem Deep.arg {s : Store} {H n : Nat} {t a : Ty} {c : TypeCon} {args : List Ty}
    (h : s.Deep H (n + 1) t) (ht : s.resolve t = .con c (args.map s.resolve)) (ha : a ∈ args) :
    s.Deep H n a := by
  obtain ⟨top, k, htop, hunder, hn⟩ := h
  rw [ht] at hunder
  exact ⟨top, k + 1, htop, hunder.arg (List.mem_map_of_mem ha), by omega⟩

/-- Links made elsewhere leave the place where it is. -/
theorem Deep.extend {s s' : Store} {H n : Nat} {t : Ty} (h : s.Deep H n t) (hs : s.Extends s')
    (hsize : s'.size = s.size) : s'.Deep H n t := by
  obtain ⟨top, k, htop, hunder, hn⟩ := h
  refine ⟨top, k, htop, ?_, by rwa [hsize]⟩
  have hunder := hunder.subst fun v => s'.resolve (.var v)
  rwa [← resolve_eq_subst, ← resolve_eq_subst, hs.resolve_resolve, hs.resolve_resolve] at hunder

/-- What unification asks of two terms. -/
structure Ready (s : Store) (H n : Nat) (l r : Ty) : Prop where
  covers_left : s.Covers l
  covers_right : s.Covers r
  height_left : l.height ≤ H
  height_right : r.height ≤ H
  deep : s.Deep H n l

theorem Ready.extend {s s' : Store} {H n : Nat} {l r : Ty} (h : s.Ready H n l r)
    (hs : s.Extends s') (hsize : s'.size = s.size) : s'.Ready H n l r where
  covers_left := h.covers_left.mono hs.size_le
  covers_right := h.covers_right.mono hs.size_le
  height_left := h.height_left
  height_right := h.height_right
  deep := h.deep.extend hs hsize

theorem Ready.args {s : Store} {H n : Nat} {l r : Ty} {c d : TypeCon} {as bs : List Ty}
    (h : s.Ready H (n + 1) l r) (hH : s.HeightLe H) (hl : s.Represents l (.con c as))
    (hr : s.Represents r (.con d bs)) {p : Ty × Ty} (hp : p ∈ as.zip bs) :
    s.Ready H n p.1 p.2 := by
  obtain ⟨ha, hb⟩ := List.of_mem_zip hp
  have hlt := Ty.height_lt_of_mem (c := c) ha
  have hlt' := Ty.height_lt_of_mem (c := d) hb
  have hle := hl.height_le H hH h.height_left
  have hle' := hr.height_le H hH h.height_right
  refine ⟨?_, ?_, by omega, by omega, ?_⟩
  · exact covers_con.mp (hl.covers h.covers_left) _ ha
  · exact covers_con.mp (hr.covers h.covers_right) _ hb
  · exact h.deep.arg (hl.resolve_eq.symm.trans (resolve_con s c as)) ha

end Store

/-! ## Settling equations -/

/-- What unification fails with. -/
inductive TypeError.IsClash : TypeError → Prop
  | mismatch (l r : String) : IsClash (.mismatch l r)
  | recursive (v t : String) : IsClash (.recursive v t)

theorem TypeError.IsClash.ne_cyclic {e : TypeError} (h : e.IsClash) : e ≠ .cyclic := by
  cases h with
  | mismatch l r => exact TypeError.noConfusion
  | recursive v t => exact TypeError.noConfusion

/-- Run from `σ`, the computation adds the equations to `s`, or fails because `s` has no solution
that solves them. -/
def Settles (x : Infer Unit) (σ : Session) (H : Nat) (s : Store) (eqs : List (Ty × Ty)) : Prop :=
  Ends x σ (fun _ σ' => s.Adds eqs σ'.store ∧ σ'.store.HeightLe H)
    (fun e σ' => s.Rejects eqs σ'.store ∧ e.IsClash)

theorem Settles.congr {x : Infer Unit} {σ : Session} {H : Nat} {s : Store}
    {es fs : List (Ty × Ty)} (h : Settles x σ H s es) (heq : s.SameEqs es fs) :
    Settles x σ H s fs :=
  Ends.mono h (fun _ _ h => ⟨h.1.congr heq, h.2⟩) fun _ _ h => ⟨h.1.congr heq, h.2⟩

/-- Equations that have been added already may be counted in. -/
theorem Settles.after {x : Infer Unit} {σ : Session} {H : Nat} {s : Store}
    {es fs : List (Ty × Ty)} (h : Settles x σ H σ.store fs) (hs : s.Adds es σ.store) :
    Settles x σ H s (es ++ fs) :=
  Ends.mono h (fun _ _ h => ⟨hs.trans h.1, h.2⟩) fun _ _ h => ⟨hs.rejects h.1, h.2⟩

theorem Settles.bind {x y : Infer Unit} {σ : Session} {H : Nat} {s : Store}
    {es fs : List (Ty × Ty)} (hx : Settles x σ H s es)
    (hy : ∀ σ', s.Adds es σ'.store → σ'.store.HeightLe H → Settles y σ' H σ'.store fs) :
    Settles (x >>= fun _ => y) σ H s (es ++ fs) :=
  Ends.bind (Ends.mono hx (fun _ _ h => h) fun _ _ h => ⟨h.1.append fs, h.2⟩)
    fun _ σ' h => (hy σ' h.1 h.2).after h.1

/-! ## One variable -/

namespace Store

theorem adds_bind {s s₁ : Store} (hs : s.WellFormed) (hq : s.Quiet s₁) {v : Var} {t : Ty}
    (hv : s.link? v = none) (hi : v.index < s.size) (ht : s.Covers t)
    (hocc : v ∉ (s.resolve t).vars) : s.Adds [(.var v, t)] (s₁.setLink v t) := by
  have hv₁ : s₁.link? v = none := (hq.bound_iff v).mpr hv
  have hi₁ : v.index < s₁.size := by rwa [hq.size_eq]
  have hocc₁ : v ∉ (s₁.resolve t).vars := by rwa [hq.toAlike.resolve_eq hs]
  have hext := extends_bind hq.wellFormed hv₁ hi₁ (ht.mono hq.size_le) hocc₁
  refine ⟨hq.toAlike.evolves.trans ⟨hext, relinks_bind hv₁ t⟩, by rw [size_setLink, hq.size_eq],
    fun θ => ?_⟩
  rw [solvedBy_bind_iff hv₁ hi₁, hq.solved_iff, solves_singleton, Ty.subst_var]

/-- A variable inside an applied constructor never has its value. -/
theorem not_solves_of_occurs {s : Store} {v : Var} {c : TypeCon} {args : List Ty} {θ : Subst}
    (hθ : s.SolvedBy θ) (hocc : v ∈ (s.resolve (.con c args)).vars) :
    θ v ≠ (Ty.con c args).subst θ := by
  intro heq
  rw [← hθ.subst_resolve, resolve_con] at heq
  rw [resolve_con] at hocc
  have hlt := Ty.height_lt_of_mem_vars θ hocc
  rw [← heq] at hlt
  omega

end Store

/-- Binding fails at the occurs check only, which has read the term and linked nothing. -/
theorem bind_spec {s : Store} (hs : s.WellFormed) {H : Nat} (hH : s.HeightLe H) {v : Var}
    {r : Ty} (hv : s.link? v = none) (hi : v.index < s.size) (hr : s.Representative r)
    (hcov : s.Covers r) (hrH : r.height ≤ H) {σ : Session} (hσ : s.Quiet σ.store) :
    Ends (v.bind r) σ (fun _ σ' => s.Adds [(.var v, r)] σ'.store ∧ σ'.store.HeightLe H)
      fun e σ' => s.Quiet σ'.store ∧ (∀ θ, s.SolvedBy θ → ¬Solves θ [(.var v, r)])
        ∧ ∃ var ty, e = .recursive var ty := by
  have hlink : ∀ σ' : Session, s.Quiet σ'.store → v ∉ (s.resolve r).vars →
      s.Adds [(.var v, r)] (σ'.store.setLink v r) ∧ (σ'.store.setLink v r).HeightLe H :=
    fun σ' hσ' hocc =>
      ⟨Store.adds_bind hs hσ' hv hi hcov hocc, (hσ'.height_le H hH).setLink hrH v⟩
  cases r with
  | var w =>
      rw [Var.bind]
      split
      · next hvw =>
          subst hvw
          have hsame : s.SameEqs [] [(.var v, .var v)] :=
            ⟨fun θ _ => by simp, fun _ _ _ _ _ p hp => nomatch hp⟩
          exact Ends.pure ⟨hσ.adds_nil.congr hsame, hσ.height_le H hH⟩
      · next hvw =>
          refine Ends.lift (hlink σ hσ ?_)
          rw [Store.resolve_of_unbound hr]
          simpa using hvw
  | con c args =>
      rw [Var.bind]
      refine Ends.reads (Store.reads_occursIn hs v _) hσ fun b σ₁ hb h₁ => ?_
      by_cases hocc : v ∈ (s.resolve (.con c args)).vars
      · rw [hb, decide_eq_true hocc]
        refine Ends.reads (Store.reads_display hs _) h₁ fun var σ₂ _ h₂ => ?_
        refine Ends.reads (Store.reads_display hs _) h₂ fun ty σ₃ _ h₃ => ?_
        refine Ends.throw ⟨h₃, fun θ hθ hsol => ?_, var, ty, rfl⟩
        rw [solves_singleton, Ty.subst_var] at hsol
        exact Store.not_solves_of_occurs hθ hocc hsol
      · rw [hb, decide_eq_false hocc]
        exact Ends.lift (hlink σ₁ h₁ hocc)

theorem bind_settles {s : Store} (hs : s.WellFormed) {H : Nat} (hH : s.HeightLe H) {v : Var}
    {r : Ty} (hv : s.link? v = none) (hi : v.index < s.size) (hr : s.Representative r)
    (hcov : s.Covers r) (hrH : r.height ≤ H) {σ : Session} (hσ : s.Quiet σ.store) :
    Settles (v.bind r) σ H s [(.var v, r)] := by
  refine Ends.mono (bind_spec hs hH hv hi hr hcov hrH hσ) (fun _ _ h => h) ?_
  rintro _ σ' ⟨hq, hno, var, ty, rfl⟩
  exact ⟨hq.rejects hno, .recursive var ty⟩

/-! ## Whole terms -/

/-- Where each single equation is settled, so are several in turn. -/
theorem forM_settles {H n : Nat}
    (hone : ∀ {l r σ}, σ.store.WellFormed → σ.store.HeightLe H → σ.store.Ready H n l r →
      Settles (unifyWithin n l r) σ H σ.store [(l, r)])
    (eqs : List (Ty × Ty)) {σ : Session} (hs : σ.store.WellFormed) (hH : σ.store.HeightLe H)
    (hready : ∀ p ∈ eqs, σ.store.Ready H n p.1 p.2) :
    Settles (eqs.forM fun (a, b) => unifyWithin n a b) σ H σ.store eqs := by
  induction eqs generalizing σ with
  | nil => exact ⟨(Store.Quiet.refl hs).adds_nil, hH⟩
  | cons p eqs ih =>
      refine Settles.bind (hone hs hH (hready p (List.mem_cons_self ..))) fun σ' hadds hH' => ?_
      refine ih hadds.wellFormed hH' fun q hq => ?_
      exact (hready q (List.mem_cons_of_mem _ hq)).extend hadds.toExtends hadds.size_eq

/-- By induction on the bound. It is not used up: the left side lies below a term of height at most
`H`, and the depth at which it lies together with what is left of the bound is more than any depth
there can be (`Deep`). Links made on the way do not spoil this, since they too lead to terms of
height at most `H`. What is carried along is that the solutions of the store are those that solve
the equations dealt with so far, and that there are none is the only reason to fail. -/
theorem unifyWithin_settles {H : Nat} (n : Nat) {l r : Ty} {σ : Session}
    (hs : σ.store.WellFormed) (hH : σ.store.HeightLe H) (hready : σ.store.Ready H n l r) :
    Settles (unifyWithin n l r) σ H σ.store [(l, r)] := by
  induction n generalizing l r σ with
  | zero => exact absurd (hready.deep.pos hH) (Nat.lt_irrefl 0)
  | succ n ih =>
      rw [unifyWithin]
      refine Ends.reads (Store.reads_prune hs l) (.refl hs) fun l' σ₁ hl h₁ => ?_
      refine Ends.reads (Store.reads_prune hs r) h₁ fun r' σ₂ hr h₂ => ?_
      refine Ends.bind (announce_ends hs h₂ l' r') fun _ σ₃ h₃ => ?_
      -- over the solutions of the store the representatives are the two terms
      have hsame : σ.store.SameEqs [(l', r')] [(l, r)] := by
        refine ⟨fun θ hθ => ?_, fun θ φ hθ hφ => ?_⟩
        · rw [solves_singleton, solves_singleton, hl.subst_eq hθ, hr.subst_eq hθ]
        · rw [agree_singleton, agree_singleton, hl.subst_eq hθ, hl.subst_eq hφ, hr.subst_eq hθ,
            hr.subst_eq hφ]
          exact fun h => h
      refine Settles.congr ?_ hsame
      have hlcov := hl.covers hready.covers_left
      have hrcov := hr.covers hready.covers_right
      have hlH := hl.height_le H hH hready.height_left
      have hrH := hr.height_le H hH hready.height_right
      cases l' with
      | var v =>
          exact bind_settles hs hH hl.representative (Store.covers_var.mp hlcov)
            hr.representative hrcov hrH h₃
      | con c as =>
          cases r' with
          | var w =>
              refine Ends.bind (announce_ends hs h₃ _ _) fun _ σ₄ h₄ => ?_
              have hswap : σ.store.SameEqs [(.var w, .con c as)] [(.con c as, .var w)] :=
                ⟨fun θ _ => by rw [solves_singleton, solves_singleton, eq_comm],
                  fun θ φ _ _ h => agree_singleton.mpr (agree_singleton.mp h).symm⟩
              refine Settles.congr ?_ hswap
              exact bind_settles hs hH hr.representative (Store.covers_var.mp hrcov)
                hl.representative hlcov hlH h₄
          | con d bs =>
              dsimp only
              split
              · next h =>
                  obtain ⟨rfl, hlen⟩ := h
                  have hargs : σ.store.SameEqs ([] ++ as.zip bs) [(.con c as, .con c bs)] :=
                    σ.store.sameEqs_args c hlen
                  refine Settles.congr (Settles.after ?_ h₃.adds_nil) hargs
                  refine forM_settles ih _ h₃.wellFormed (h₃.height_le H hH) fun p hp => ?_
                  exact (hready.args hH hl hr hp).extend h₃.toAlike.extends h₃.size_eq
              · next h =>
                  refine Ends.reads (Store.reads_display hs _) h₃ fun expected σ₄ _ h₄ => ?_
                  refine Ends.reads (Store.reads_display hs _) h₄ fun found σ₅ _ h₅ => ?_
                  refine Ends.throw ⟨h₅.rejects fun θ _ hsol => ?_, .mismatch ..⟩
                  rw [solves_singleton, Ty.subst_con, Ty.subst_con] at hsol
                  obtain ⟨hc, hargs⟩ := Ty.con.inj hsol
                  exact h ⟨hc, by simpa using congrArg List.length hargs⟩

/-- The budget of `unify` is enough for the store and the two terms. -/
theorem Store.ready_budget {s : Store} {l r : Ty} (hl : s.Covers l) (hr : s.Covers r) :
    s.Ready (max s.height (Ty.heights [l, r])) (s.budget [l, r]) l r := by
  have hheight : ∀ t ∈ [l, r], t.height ≤ max s.height (Ty.heights [l, r]) := fun t ht =>
    Nat.le_trans (Ty.height_le_heights ht) (Nat.le_max_right ..)
  exact ⟨hl, hr, hheight l (by simp), hheight r (by simp),
    l, 0, hheight l (by simp), .top, Nat.le_refl _⟩

theorem unify_settles {l r : Ty} {σ : Session} (hs : σ.store.WellFormed)
    (hl : σ.store.Covers l) (hr : σ.store.Covers r) :
    Settles (unify l r) σ (max σ.store.height (Ty.heights [l, r])) σ.store [(l, r)] :=
  unifyWithin_settles _ hs (σ.store.heightLe_height.mono (Nat.le_max_left ..))
    (Store.ready_budget hl hr)

theorem unify_spec {l r : Ty} {σ : Session} (hs : σ.store.WellFormed)
    (hl : σ.store.Covers l) (hr : σ.store.Covers r) :
    Ends (unify l r) σ (fun _ σ' => σ.store.Adds [(l, r)] σ'.store)
      fun _ σ' => σ.store.Rejects [(l, r)] σ'.store :=
  Ends.mono (unify_settles hs hl hr) (fun _ _ h => h.1) fun _ _ h => h.1

theorem unify_adds {l r : Ty} {σ : Session} (hs : σ.store.WellFormed) (hl : σ.store.Covers l)
    (hr : σ.store.Covers r) :
    Ends (unify l r) σ (fun _ σ' => σ.store.Adds [(l, r)] σ'.store) fun e _ => e ≠ .cyclic :=
  Ends.mono (unify_settles hs hl hr) (fun _ _ h => h.1) fun _ _ h => h.2.ne_cyclic

/-- Unification succeeds exactly where the store has a solution that makes the two terms equal, and
then leaves exactly those solutions. The terms compare as equal from then on. -/
theorem unify_most_general {l r : Ty} {σ : Session} (hs : σ.store.WellFormed)
    (hl : σ.store.Covers l) (hr : σ.store.Covers r) :
    ((∃ σ', unify l r σ = .ok () σ')
        ↔ ∃ θ, σ.store.SolvedBy θ ∧ l.subst θ = r.subst θ)
      ∧ ∀ σ', unify l r σ = .ok () σ' →
          (∀ θ, σ'.store.SolvedBy θ ↔ σ.store.SolvedBy θ ∧ l.subst θ = r.subst θ)
            ∧ (l.equal r σ'.store).1 = true := by
  have hspec := unify_spec hs hl hr
  have hsolved : ∀ {s'}, σ.store.Adds [(l, r)] s' →
      ∀ θ, s'.SolvedBy θ ↔ σ.store.SolvedBy θ ∧ l.subst θ = r.subst θ := fun h θ => by
    rw [h.solved_iff, solves_singleton]
  refine ⟨⟨?_, ?_⟩, ?_⟩
  · rintro ⟨σ', h⟩
    have hadds := Ends.of_ok hspec h
    exact ⟨_, (hsolved hadds _).mp (Store.solvedBy_resolve hadds.wellFormed.acyclic)⟩
  · rintro ⟨θ, hθ, heq⟩
    cases h : unify l r σ with
    | ok u σ' => exact ⟨σ', rfl⟩
    | error e σ' =>
        have hrej := Ends.of_error hspec h
        exact absurd (solves_singleton.mpr heq) (hrej.unsolvable θ hθ)
  · intro σ' h
    have hadds := Ends.of_ok hspec h
    have hwf := hadds.wellFormed
    refine ⟨hsolved hadds, ?_⟩
    have heq := ((hsolved hadds _).mp (Store.solvedBy_resolve hwf.acyclic)).2
    rw [((Store.reads_equal hwf l r).here hwf).1, decide_eq_true_eq, Store.resolve_eq_subst,
      heq, ← Store.resolve_eq_subst]

/-- Three variables; the first is linked to the lists of the second. -/
def Store.sample : Store where
  cells := #[{ supply := 0, serial := 0, link := some (.list (.var ⟨1⟩)) },
    { supply := 0, serial := 1 }, { supply := 0, serial := 2 }]
  supplies := #[{ allocated := 3 }]

theorem Store.sample_link? {v : Var} {t : Ty} (h : Store.sample.link? v = some t) :
    v = ⟨0⟩ ∧ t = .list (.var ⟨1⟩) := by
  match v with
  | ⟨0⟩ => exact ⟨rfl, (Option.some.inj h).symm⟩
  | ⟨1⟩ => cases h
  | ⟨2⟩ => cases h
  | ⟨_ + 3⟩ => cases h

theorem Store.sample_wellFormed : Store.sample.WellFormed := by
  constructor
  · intro v t h
    obtain ⟨-, rfl⟩ := sample_link? h
    intro w hw
    obtain rfl := List.mem_singleton.mp (by simpa [Ty.list] using hw)
    decide
  · refine acyclic_of_rank (fun v => 3 - v.index) ?_
    rintro v w ⟨t, h, hw⟩
    obtain ⟨rfl, rfl⟩ := sample_link? h
    obtain rfl := List.mem_singleton.mp (by simpa [Ty.list] using hw)
    decide

theorem Store.sample_covers_fn (i : Nat) (c : TypeCon) (hi : i < 3) :
    Store.sample.Covers (.fn (.var ⟨i⟩) (.nullary c)) :=
  covers_fn.mpr ⟨covers_var.mpr hi, covers_con.mpr fun _ h => nomatch h⟩

/-- `#0 -> #1` and `#2 -> Int` unify through the link of `#0`. -/
theorem unify_most_general_sample :
    let l := Ty.fn (.var ⟨0⟩) (.var ⟨1⟩)
    let r := Ty.fn (.var ⟨2⟩) (.nullary .int)
    Store.sample.WellFormed ∧ Store.sample.Covers l ∧ Store.sample.Covers r
      ∧ ∃ σ', unify l r { store := Store.sample } = .ok () σ'
        ∧ ∀ θ, σ'.store.SolvedBy θ ↔ Store.sample.SolvedBy θ ∧ l.subst θ = r.subst θ := by
  intro l r
  have hl : Store.sample.Covers l :=
    Store.covers_fn.mpr ⟨Store.covers_var.mpr (by decide), Store.covers_var.mpr (by decide)⟩
  have hr : Store.sample.Covers r :=
    Store.covers_fn.mpr
      ⟨Store.covers_var.mpr (by decide), Store.covers_con.mpr fun _ h => nomatch h⟩
  obtain ⟨hiff, hall⟩ :=
    unify_most_general (σ := { store := Store.sample }) Store.sample_wellFormed hl hr
  let θ : Subst := fun v => if v = ⟨1⟩ then .nullary .int else .list (.nullary .int)
  have hθ : Store.sample.SolvedBy θ := by
    intro v t h
    obtain ⟨rfl, rfl⟩ := Store.sample_link? h
    rfl
  obtain ⟨σ', h⟩ := hiff.mpr ⟨θ, hθ, rfl⟩
  exact ⟨Store.sample_wellFormed, hl, hr, σ', h, (hall σ' h).1⟩

end Overload
