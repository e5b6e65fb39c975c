import Overload.Inference.Expr
import Overload.Proofs.Analysis
import Overload.Proofs.Twins
import Overload.Proofs.TwoRuns

/-!
# Two inferences in step

The same inference is run from two stores that are in step, on terms that are twins. It then makes
the same decisions in both (`analyze_matched`): it ends with twins, or with the same error, texts
aside. Reports, names and shortened chains may differ; no decision depends on them. The bounds on
the depth of the walks differ as well, but both are large enough.
-/

namespace Overload

namespace Matched

variable {ρ : Var → Var} {s₁ s₂ : Store} {σ₁ σ₂ : Session} {α β γ δ : Type}
  {P : α → β → Store → Store → Prop} {Q : γ → δ → Store → Store → Prop}

/-- A computation from stores that have advanced. -/
theorem after {x₁ : Infer α} {x₂ : Infer β}
    (hx : Matched (σ₁.store.Advances ρ σ₂.store) x₁ σ₁ x₂ σ₂ P)
    (h : s₁.Advances ρ s₂ σ₁.store σ₂.store) : Matched (s₁.Advances ρ s₂) x₁ σ₁ x₂ σ₂ P :=
  hx.mono h.trans fun _ hP => hP

/-- One computation after another, with the second compared from where it starts. -/
theorem andThen {x₁ : Infer α} {x₂ : Infer β} {f₁ : α → Infer γ} {f₂ : β → Infer δ}
    (hx : Matched (σ₁.store.Advances ρ σ₂.store) x₁ σ₁ x₂ σ₂ P)
    (hf : ∀ a b σ₁' σ₂', σ₁.store.Advances ρ σ₂.store σ₁'.store σ₂'.store →
      P a b σ₁'.store σ₂'.store →
      Matched (σ₁'.store.Advances ρ σ₂'.store) (f₁ a) σ₁' (f₂ b) σ₂' Q) :
    Matched (σ₁.store.Advances ρ σ₂.store) (x₁ >>= f₁) σ₁ (x₂ >>= f₂) σ₂ Q :=
  hx.bind fun a b σ₁' σ₂' hadv hP => (hf a b σ₁' σ₂' hadv hP).after hadv

end Matched

/-! ## Unification -/

section unification

variable {ρ : Var → Var} {σ₁ σ₂ : Session}

/-- Twin variables are bound to twin terms, or neither is. -/
theorem bind_matched (hρ : Function.Injective ρ) {s₁ s₂ : Store} (hs : s₁.Paired ρ s₂) {v : Var}
    {r₁ r₂ : Ty} (h₁ : s₁.MayBind v r₁) (h₂ : s₂.MayBind (ρ v) r₂) (hr : s₁.Twin ρ s₂ r₁ r₂)
    (hσ₁ : s₁.Quiet σ₁.store) (hσ₂ : s₂.Quiet σ₂.store) :
    Matched (s₁.Advances ρ s₂) (v.bind r₁) σ₁ ((ρ v).bind r₂) σ₂ fun _ _ _ _ => True := by
  have hlink : ∀ σ₁' σ₂' : Session, s₁.Quiet σ₁'.store → s₂.Quiet σ₂'.store →
      v ∉ (s₁.resolve r₁).vars → Matched (s₁.Advances ρ s₂) (liftM (v.link r₁)) σ₁'
        (liftM ((ρ v).link r₂)) σ₂' fun _ _ _ _ => True := by
    intro σ₁' σ₂' hq₁ hq₂ hocc
    have hadv := hs.quiet hq₁ hq₂
    have hb₁ := h₁.quiet hq₁
    have hb₂ := h₂.quiet hq₂
    refine .lift (hadv.trans ?_) trivial
    refine hadv.paired.bind hρ hb₁.unbound hb₁.lt_size hb₁.covers hb₂.unbound hb₂.lt_size
      hb₂.covers (hadv.twins hr) ?_
    rwa [hq₁.toAlike.resolve_eq hs.left]
  rcases hr.heads h₁.representative.represents_self h₂.representative.represents_self with
    ⟨w, rfl, rfl⟩ | ⟨c, as, bs, rfl, rfl, -⟩
  · rw [Var.bind, Var.bind]
    by_cases hvw : v = w
    · rw [if_pos hvw, if_pos (congrArg ρ hvw)]
      exact .pure (hs.quiet hσ₁ hσ₂) trivial
    · rw [if_neg hvw, if_neg (hρ.ne hvw)]
      refine hlink σ₁ σ₂ hσ₁ hσ₂ ?_
      rw [Store.resolve_of_unbound h₁.representative]
      simpa using hvw
  · rw [Var.bind, Var.bind]
    refine .reads (Store.reads_occursIn hs.left v _) (Store.reads_occursIn hs.right (ρ v) _)
      hσ₁ hσ₂ fun found₁ found₂ σ₁' σ₂' hf₁ hf₂ hq₁ hq₂ => ?_
    by_cases hocc : v ∈ (s₁.resolve (.con c as)).vars
    · rw [hf₁, hf₂, decide_eq_true hocc, decide_eq_true ((hr.mem_vars_iff hρ).mpr hocc)]
      refine .reads (Store.reads_display hs.left _) (Store.reads_display hs.right _) hq₁ hq₂
        fun var₁ var₂ σ₁'' σ₂'' _ _ hq₁ hq₂ => ?_
      refine .reads (Store.reads_display hs.left _) (Store.reads_display hs.right _) hq₁ hq₂
        fun ty₁ ty₂ _ _ _ _ hq₁ hq₂ => ?_
      exact .throw (hs.quiet hq₁ hq₂) (.recursive ..)
    · rw [hf₁, hf₂, decide_eq_false hocc,
        decide_eq_false fun h => hocc ((hr.mem_vars_iff hρ).mp h)]
      exact hlink σ₁' σ₂' hq₁ hq₂ hocc

/-- Where single equations are treated alike, so are several in turn. -/
theorem forM_matched {H₁ H₂ n₁ n₂ : Nat}
    (hone : ∀ {l₁ r₁ l₂ r₂ σ₁ σ₂}, σ₁.store.Paired ρ σ₂.store → σ₁.store.HeightLe H₁ →
      σ₂.store.HeightLe H₂ → σ₁.store.Ready H₁ n₁ l₁ r₁ → σ₂.store.Ready H₂ n₂ l₂ r₂ →
      σ₁.store.Twin ρ σ₂.store l₁ l₂ → σ₁.store.Twin ρ σ₂.store r₁ r₂ →
      Matched (σ₁.store.Advances ρ σ₂.store) (unifyWithin n₁ l₁ r₁) σ₁ (unifyWithin n₂ l₂ r₂) σ₂
        fun _ _ _ _ => True)
    {eqs₁ eqs₂ : List (Ty × Ty)} (hs : σ₁.store.Paired ρ σ₂.store) (hH₁ : σ₁.store.HeightLe H₁)
    (hH₂ : σ₂.store.HeightLe H₂) (hready₁ : ∀ q ∈ eqs₁, σ₁.store.Ready H₁ n₁ q.1 q.2)
    (hready₂ : ∀ q ∈ eqs₂, σ₂.store.Ready H₂ n₂ q.1 q.2)
    (htwins : List.Forall₂ (fun q₁ q₂ => σ₁.store.Twin ρ σ₂.store q₁.1 q₂.1
      ∧ σ₁.store.Twin ρ σ₂.store q₁.2 q₂.2) eqs₁ eqs₂) :
    Matched (σ₁.store.Advances ρ σ₂.store) (eqs₁.forM fun (a, b) => unifyWithin n₁ a b) σ₁
      (eqs₂.forM fun (a, b) => unifyWithin n₂ a b) σ₂ fun _ _ _ _ => True := by
  induction eqs₁ generalizing eqs₂ σ₁ σ₂ with
  | nil =>
      cases htwins
      exact .pure hs.refl trivial
  | cons q₁ eqs₁ ih =>
      cases htwins with
      | @cons _ q₂ _ eqs₂ hq hrest =>
          obtain ⟨hr₁, hrs₁⟩ := List.forall_mem_cons.mp hready₁
          obtain ⟨hr₂, hrs₂⟩ := List.forall_mem_cons.mp hready₂
          have hfirst := (hone hs hH₁ hH₂ hr₁ hr₂ hq.1 hq.2).and_ends
            (A := fun _ s => σ₁.store.Adds _ s ∧ s.HeightLe H₁)
            (B := fun _ s => σ₂.store.Adds _ s ∧ s.HeightLe H₂)
            (unifyWithin_settles n₁ hs.left hH₁ hr₁) (unifyWithin_settles n₂ hs.right hH₂ hr₂)
          refine hfirst.andThen fun _ _ σ₁' σ₂' hadv h => ?_
          obtain ⟨-, ⟨hadds₁, hH₁'⟩, hadds₂, hH₂'⟩ := h
          refine ih hadv.paired hH₁' hH₂' (fun q hq => ?_) (fun q hq => ?_) ?_
          · exact (hrs₁ q hq).extend hadds₁.toExtends hadds₁.size_eq
          · exact (hrs₂ q hq).extend hadds₂.toExtends hadds₂.size_eq
          · exact hrest.imp fun _ _ h => ⟨hadv.twins h.1, hadv.twins h.2⟩

/-- Twin equations are solved by the same steps. The bounds `n₁` and `n₂` need not agree; neither is
reached. -/
theorem unifyWithin_matched (hρ : Function.Injective ρ) {H₁ H₂ : Nat} (n₁ n₂ : Nat)
    {l₁ r₁ l₂ r₂ : Ty} (hs : σ₁.store.Paired ρ σ₂.store) (hH₁ : σ₁.store.HeightLe H₁)
    (hH₂ : σ₂.store.HeightLe H₂) (h₁ : σ₁.store.Ready H₁ n₁ l₁ r₁)
    (h₂ : σ₂.store.Ready H₂ n₂ l₂ r₂) (hl : σ₁.store.Twin ρ σ₂.store l₁ l₂)
    (hr : σ₁.store.Twin ρ σ₂.store r₁ r₂) :
    Matched (σ₁.store.Advances ρ σ₂.store) (unifyWithin n₁ l₁ r₁) σ₁ (unifyWithin n₂ l₂ r₂) σ₂
      fun _ _ _ _ => True := by
  induction n₁ generalizing n₂ l₁ r₁ l₂ r₂ σ₁ σ₂ with
  | zero => exact absurd (h₁.deep.pos hH₁) (Nat.lt_irrefl 0)
  | succ n₁ ih =>
      cases n₂ with
      | zero => exact absurd (h₂.deep.pos hH₂) (Nat.lt_irrefl 0)
      | succ n₂ =>
          rw [unifyWithin, unifyWithin]
          refine .reads (Store.reads_prune hs.left l₁) (Store.reads_prune hs.right l₂)
            (.refl hs.left) (.refl hs.right) fun l₁' l₂' _ _ hl₁ hl₂ hq₁ hq₂ => ?_
          refine .reads (Store.reads_prune hs.left r₁) (Store.reads_prune hs.right r₂) hq₁ hq₂
            fun r₁' r₂' _ _ hr₁ hr₂ hq₁ hq₂ => ?_
          refine announce_matched hs.left hs.right hq₁ hq₂ _ _ _ _ fun σ₁' σ₂' hq₁ hq₂ => ?_
          have hlcov₁ := hl₁.covers h₁.covers_left
          have hrcov₁ := hr₁.covers h₁.covers_right
          have hlcov₂ := hl₂.covers h₂.covers_left
          have hrcov₂ := hr₂.covers h₂.covers_right
          rcases hl.heads hl₁ hl₂ with ⟨v, rfl, rfl⟩ | ⟨c, las, lbs, rfl, rfl, hlargs⟩
          · exact bind_matched hρ hs
              ⟨hl₁.representative, Store.covers_var.mp hlcov₁, hr₁.representative, hrcov₁⟩
              ⟨hl₂.representative, Store.covers_var.mp hlcov₂, hr₂.representative, hrcov₂⟩
              (hr.represent hr₁ hr₂) hq₁ hq₂
          · rcases hr.heads hr₁ hr₂ with ⟨w, rfl, rfl⟩ | ⟨d, ras, rbs, rfl, rfl, hrargs⟩
            · refine announce_matched hs.left hs.right hq₁ hq₂ _ _ _ _ fun _ _ hq₁ hq₂ => ?_
              exact bind_matched hρ hs
                ⟨hr₁.representative, Store.covers_var.mp hrcov₁, trivial, hlcov₁⟩
                ⟨hr₂.representative, Store.covers_var.mp hrcov₂, trivial, hlcov₂⟩
                (hl.represent hl₁ hl₂) hq₁ hq₂
            · have hlen : las.length = ras.length ↔ lbs.length = rbs.length := by
                rw [hlargs.length_eq, hrargs.length_eq]
              dsimp only
              by_cases h : c = d ∧ las.length = ras.length
              · rw [if_pos h, if_pos ⟨h.1, hlen.mp h.2⟩]
                have hadv := hs.quiet hq₁ hq₂
                refine Matched.after (forM_matched (ih n₂) hadv.paired (hq₁.height_le H₁ hH₁)
                  (hq₂.height_le H₂ hH₂) (fun q hq => ?_) (fun q hq => ?_) ?_) hadv
                · exact (h₁.args hH₁ hl₁ hr₁ hq).extend hq₁.toAlike.extends hq₁.size_eq
                · exact (h₂.args hH₂ hl₂ hr₂ hq).extend hq₂.toAlike.extends hq₂.size_eq
                · exact (forall₂_zip_zip hlargs hrargs).imp fun _ _ h =>
                    ⟨hadv.twins h.1, hadv.twins h.2⟩
              · rw [if_neg h, if_neg fun h' => h ⟨h'.1, hlen.mpr h'.2⟩]
                refine .reads (Store.reads_display hs.left _) (Store.reads_display hs.right _)
                  hq₁ hq₂ fun _ _ _ _ _ _ hq₁ hq₂ => ?_
                refine .reads (Store.reads_display hs.left _) (Store.reads_display hs.right _)
                  hq₁ hq₂ fun _ _ _ _ _ _ hq₁ hq₂ => ?_
                exact .throw (hs.quiet hq₁ hq₂) (.mismatch ..)

/-- Each side has a budget of its own, and either is large enough. -/
theorem unify_matched (hρ : Function.Injective ρ) {l₁ r₁ l₂ r₂ : Ty}
    (hs : σ₁.store.Paired ρ σ₂.store) (hl : σ₁.store.Shares ρ σ₂.store l₁ l₂)
    (hr : σ₁.store.Shares ρ σ₂.store r₁ r₂) :
    Matched (σ₁.store.Advances ρ σ₂.store) (unify l₁ r₁) σ₁ (unify l₂ r₂) σ₂
      fun _ _ _ _ => True := by
  have hmatched := unifyWithin_matched hρ _ _ hs
    (σ₁.store.heightLe_height.mono (Nat.le_max_left ..))
    (σ₂.store.heightLe_height.mono (Nat.le_max_left ..)) (Store.ready_budget hl.left hr.left)
    (Store.ready_budget hl.right hr.right) hl.twin hr.twin
  cases hmatched with
  | ok h₁ h₂ hadv h => exact .ok h₁ h₂ hadv h
  | error h₁ h₂ hadv hlike => exact .error h₁ h₂ hadv hlike

end unification

/-! ## Expressions -/

section analysis

variable {ρ : Var → Var} {s₁ s₂ : Store}

/-- Environments that give each name twin types, or both none, and fixed variables that are
twins. -/
structure Store.Aligns (s₁ : Store) (ρ : Var → Var) (s₂ : Store) (Γ₁ Γ₂ : Env)
    (fixed : List Var) : Prop where
  env : ∀ x, Option.Rel (s₁.Shares ρ s₂) (Γ₁.get? x) (Γ₂.get? x)
  fixed : ∀ f ∈ fixed, s₁.Twin ρ s₂ (.var f) (.var (ρ f))

namespace Store.Aligns

variable {Γ₁ Γ₂ : Env} {fixed : List Var} {s₁' s₂' : Store}

theorem advance (h : s₁.Aligns ρ s₂ Γ₁ Γ₂ fixed) (hadv : s₁.Advances ρ s₂ s₁' s₂') :
    s₁'.Aligns ρ s₂' Γ₁ Γ₂ fixed where
  env x :=
    match Γ₁.get? x, Γ₂.get? x, h.env x with
    | _, _, .some ht => .some (ht.advance hadv)
    | _, _, .none => .none
  fixed f hf := hadv.twins (h.fixed f hf)

theorem extend (h : s₁.Aligns ρ s₂ Γ₁ Γ₂ fixed) {t₁ t₂ : Ty} (ht : s₁.Shares ρ s₂ t₁ t₂)
    (x : String) : s₁.Aligns ρ s₂ (Γ₁.extend x t₁) (Γ₂.extend x t₂) fixed where
  env y := by
    by_cases hxy : y = x
    · subst hxy
      rw [Env.get?_extend_self, Env.get?_extend_self]
      exact .some ht
    · rw [Env.get?_extend_of_ne Γ₁ t₁ hxy, Env.get?_extend_of_ne Γ₂ t₂ hxy]
      exact h.env y
  fixed := h.fixed

theorem fix (h : s₁.Aligns ρ s₂ Γ₁ Γ₂ fixed) {v : Var}
    (hv : s₁.Twin ρ s₂ (.var v) (.var (ρ v))) : s₁.Aligns ρ s₂ Γ₁ Γ₂ (fixed ++ [v]) where
  env := h.env
  fixed f hf := by
    rcases List.mem_append.mp hf with hf | hf
    · exact h.fixed f hf
    · rwa [List.mem_singleton.mp hf]

end Store.Aligns

/-- `Shares`, and the second term is the first one with its variables renamed, links not
followed. -/
structure Store.Mirrors (s₁ : Store) (ρ : Var → Var) (s₂ : Store) (t₁ t₂ : Ty) : Prop extends
    Shares s₁ ρ s₂ t₁ t₂ where
  eq_rename : t₂ = t₁.rename ρ

theorem Store.Mirrors.advance {s₁' s₂' : Store} {t₁ t₂ : Ty} (h : s₁.Mirrors ρ s₂ t₁ t₂)
    (hadv : s₁.Advances ρ s₂ s₁' s₂') : s₁'.Mirrors ρ s₂' t₁ t₂ :=
  ⟨h.toShares.advance hadv, h.eq_rename⟩

theorem Store.Mirrors.fn {t₁ t₂ u₁ u₂ : Ty} (ht : s₁.Mirrors ρ s₂ t₁ t₂)
    (hu : s₁.Mirrors ρ s₂ u₁ u₂) : s₁.Mirrors ρ s₂ (.fn t₁ u₁) (.fn t₂ u₂) := by
  refine ⟨ht.toShares.fn hu.toShares, ?_⟩
  rw [ht.eq_rename, hu.eq_rename, Ty.fn, Ty.fn, Ty.rename_con]
  rfl

theorem fresh_matched {σ₁ σ₂ : Session} (hs : σ₁.store.Paired ρ σ₂.store) (p : SupplyId) :
    Matched (σ₁.store.Advances ρ σ₂.store) (liftM p.fresh) σ₁ (liftM p.fresh) σ₂
      fun v w s₁ s₂ => w = ρ v ∧ s₁.Mirrors ρ s₂ (.var v) (.var w) := by
  obtain ⟨hadv, heq, htwin⟩ := hs.fresh p
  refine .lift hadv ⟨heq, ⟨Store.covers_fresh p _, Store.covers_fresh p _, htwin⟩, ?_⟩
  rw [heq, Ty.rename_var]

theorem freshTy_matched {σ₁ σ₂ : Session} (hs : σ₁.store.Paired ρ σ₂.store) (p : SupplyId) :
    Matched (σ₁.store.Advances ρ σ₂.store) (liftM p.freshTy) σ₁ (liftM p.freshTy) σ₂
      fun t u s₁ s₂ => s₁.Mirrors ρ s₂ t u := by
  obtain ⟨hadv, heq, htwin⟩ := hs.fresh p
  refine .lift hadv ⟨⟨Store.covers_fresh p _, Store.covers_fresh p _, htwin⟩, ?_⟩
  exact (congrArg Ty.var heq).trans (Ty.rename_var ..).symm

theorem copy_matched (hρ : Function.Injective ρ) {σ₁ σ₂ : Session}
    (hs : σ₁.store.Paired ρ σ₂.store) {t₁ t₂ : Ty} (ht : σ₁.store.Shares ρ σ₂.store t₁ t₂)
    {fixed : List Var} (hfixed : ∀ f ∈ fixed, σ₁.store.Twin ρ σ₂.store (.var f) (.var (ρ f)))
    (p : SupplyId) :
    Matched (σ₁.store.Advances ρ σ₂.store) (liftM (t₁.copy fixed p)) σ₁
      (liftM (t₂.copy (fixed.map ρ) p)) σ₂ fun u₁ u₂ s₁ s₂ => s₁.Mirrors ρ s₂ u₁ u₂ := by
  obtain ⟨hadv, htwin⟩ := hs.copy hρ ht.twin hfixed p
  obtain ⟨-, heq, -⟩ := hs.copyWith hρ ht.twin hfixed p []
  exact .lift hadv ⟨⟨(Store.isCopy_copy hs.left t₁ fixed p).covers hs.left ht.left,
    (Store.isCopy_copy hs.right t₂ _ p).covers hs.right ht.right, htwin⟩, heq⟩

/-- An expression has twin types in stores that are in step, or the same error in both. -/
theorem analyze_matched (hρ : Function.Injective ρ) (e : Expr) {p : SupplyId} {Γ₁ Γ₂ : Env}
    {fixed : List Var} {σ₁ σ₂ : Session} (hs : σ₁.store.Paired ρ σ₂.store)
    (hΓ : σ₁.store.Aligns ρ σ₂.store Γ₁ Γ₂ fixed) :
    Matched (σ₁.store.Advances ρ σ₂.store) (e.analyze p Γ₁ fixed) σ₁
      (e.analyze p Γ₂ (fixed.map ρ)) σ₂ fun t₁ t₂ s₁ s₂ => s₁.Mirrors ρ s₂ t₁ t₂ := by
  induction e generalizing Γ₁ Γ₂ fixed σ₁ σ₂ with
  | var name =>
      rw [Expr.analyze, Expr.analyze]
      have henv := hΓ.env name
      generalize Γ₁.get? name = found₁ at henv ⊢
      generalize Γ₂.get? name = found₂ at henv ⊢
      cases henv with
      | none => exact .throw hs.refl (.undefined name)
      | some ht => exact copy_matched hρ hs ht hΓ.fixed p
  | app func arg ihf iha =>
      rw [Expr.analyze, Expr.analyze]
      refine (ihf hs hΓ).andThen fun f₁ f₂ _ _ hadv hf => ?_
      refine (iha hadv.paired (hΓ.advance hadv)).andThen fun a₁ a₂ _ _ hadv' ha => ?_
      refine (freshTy_matched hadv'.paired p).andThen fun r₁ r₂ _ _ hadv'' hr => ?_
      have hunify := unify_matched hρ hadv''.paired ((ha.advance hadv'').fn hr).toShares
        (hf.advance (hadv'.trans hadv'')).toShares
      exact hunify.andThen fun _ _ _ _ hadv _ => .pure hadv.paired.refl (hr.advance hadv)
  | lam param body ih =>
      rw [Expr.analyze, Expr.analyze]
      refine (fresh_matched hs p).andThen ?_
      rintro v w _ _ hadv ⟨rfl, hv⟩
      have hbody := ih hadv.paired (((hΓ.advance hadv).extend hv.toShares param).fix hv.twin)
      rw [List.map_append, List.map_singleton] at hbody
      exact hbody.andThen fun _ _ _ _ hadv' hb =>
        .pure hadv'.paired.refl ((hv.advance hadv').fn hb)
  | letRec name defn body ihd ihb =>
      rw [Expr.analyze, Expr.analyze]
      refine (fresh_matched hs p).andThen ?_
      rintro v w _ _ hadv ⟨rfl, hv⟩
      have hin := (hΓ.advance hadv).extend hv.toShares name
      have hdefn := ihd hadv.paired (hin.fix hv.twin)
      rw [List.map_append, List.map_singleton] at hdefn
      refine hdefn.andThen fun d₁ d₂ _ _ hadv' hd => ?_
      have hunify := unify_matched hρ hadv'.paired (hv.advance hadv').toShares hd.toShares
      refine hunify.andThen fun _ _ _ _ hadv'' _ => ?_
      exact ihb hadv''.paired (hin.advance (hadv'.trans hadv''))

end analysis

end Overload
