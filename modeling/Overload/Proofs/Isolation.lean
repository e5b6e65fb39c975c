import Overload.Proofs.Lockstep
import Overload.Proofs.PartialApplication
import Overload.Proofs.Reachability
import Overload.Proofs.RunRules

/-!
# Analyses in one session

Expressions are analysed one after another in one session, some of them with success and some not;
all of them leave links behind. Each has the outcome that it has by itself at the start of the
session (`analyses_isolated`): the same type up to the names of its variables, or the same error.

What the earlier analyses did is confined with nothing fixed, so the types of the environment still
resolve as they did. The store of the session is therefore in step with the one at the start, under
the renaming that moves the new variables past those of the earlier analyses (`Var.shift`).
-/

namespace Overload

/-- Variables below `n` stay; the others move on, from `n` to `k`. -/
def Var.shift (n k : Nat) (v : Var) : Var := if v.index < n then v else ⟨v.index - n + k⟩

theorem Var.shift_of_lt {n : Nat} (k : Nat) {v : Var} (h : v.index < n) : v.shift n k = v :=
  if_pos h

theorem Var.shift_add (n k j : Nat) : Var.shift n k ⟨n + j⟩ = ⟨k + j⟩ := by
  rw [Var.shift, if_neg (by simp)]
  congr 1
  show n + j - n + k = k + j
  omega

theorem Var.shift_injective {n k : Nat} (h : n ≤ k) : Function.Injective (Var.shift n k) := by
  intro v w hvw
  cases v with | mk i => cases w with | mk j =>
  simp only [Var.shift] at hvw
  split at hvw <;> split at hvw <;> simp only [Var.mk.injEq] at hvw ⊢ <;> omega

namespace Store

theorem Twin.variant {s₁ s₂ : Store} {ρ : Var → Var} (hρ : Function.Injective ρ) {t₁ t₂ : Ty}
    (h : s₁.Twin ρ s₂ t₁ t₂) : (s₁.resolve t₁).Variant (s₂.resolve t₂) :=
  ⟨ρ, fun _ _ _ _ heq => hρ heq, h.symm⟩

/-! ## A session in step with its start -/

section

variable {s s' : Store}

theorem Confined.paired (h : s.Confined [] s') (hs : s.WellFormed) :
    s.Paired (Var.shift s.size s'.size) s' :=
  ⟨hs, h.wellFormed, Var.shift_add s.size s'.size⟩

/-- Terms of the start are their own twins. -/
theorem Confined.shares (h : s.Confined [] s') (hs : s.WellFormed) {t : Ty} (ht : s.Covers t) :
    s.Shares (Var.shift s.size s'.size) s' t t := by
  refine ⟨ht, ht.mono h.size_le, ?_⟩
  have hold : ∀ v ∈ (s.resolve t).vars, Ty.var (v.shift s.size s'.size) = .var v := fun v hv =>
    congrArg Ty.var (Var.shift_of_lt _ (hs.covers_resolve ht v hv))
  rw [Twin, h.resolve_eq hs ht, Ty.rename, Ty.subst_congr hold, Ty.subst_id]

theorem Confined.aligns (h : s.Confined [] s') (hs : s.WellFormed) {Γ : Env}
    (hΓ : s.Scopes Γ []) :
    s.Aligns (Var.shift s.size s'.size) s' Γ Γ [] where
  env x := by
    cases hx : Γ.get? x with
    | none => exact .none
    | some t => exact .some (h.shares hs (hΓ.env hx))
  fixed _ hf := nomatch hf

end

end Store

/-! ## Outcomes -/

/-- The same type up to the names of its variables, read in the two stores, or the same error. -/
inductive SameOutcome (s s' : Store) : Except Fault Ty → Except Fault Ty → Prop
  | type {t t' : Ty} : (s.resolve t).Variant (s'.resolve t') → SameOutcome s s' (.ok t) (.ok t')
  | error {err err' : TypeError} : err.Like err' →
      SameOutcome s s' (.error (.type err)) (.error (.type err'))

/-- Later changes elsewhere do not touch an outcome. -/
theorem SameOutcome.later {s s' s'' : Store} {r r' : Except Fault Ty} (h : SameOutcome s s' r r')
    (hs' : s'.WellFormed) (hr' : ∀ t, r' = .ok t → s'.Covers t) (hlater : s'.Confined [] s'') :
    SameOutcome s s'' r r' := by
  cases h with
  | error hlike => exact .error hlike
  | @type t t' hvar =>
      refine .type ?_
      rwa [hlater.resolve_eq hs' (hr' t' rfl)]

namespace Engine

/-- The session in which an engine analyses. -/
def tracedSession (e : Engine) (m : Machine) : Session :=
  (m.setActive (some e.settings.trace)).session

/-- The machine that an analysis leaves. -/
def afterAnalysis (m : Machine) (σ : Session) : Machine :=
  ({ m with session := σ } : Machine).setActive m.session.trace.active

theorem observe_analyze (e : Engine) (x : Expr) (Γ : Env) (m : Machine) :
    Run.observe (e.analyze x Γ) m =
      match x.analyze e.supply Γ [] (e.tracedSession m) with
      | .ok t σ => .ok (.ok t) (afterAnalysis m σ)
      | .error err σ => .ok (.error (.type err)) (afterAnalysis m σ) := by
  rw [Run.observe, Engine.analyze, Engine.traced_eq, Run.infer_eq, tracedSession]
  cases x.analyze e.supply Γ [] (m.setActive (some e.settings.trace)).session with
  | ok t σ => rfl
  | error err σ => rfl

/-- One analysis in a session, compared with the same one at its start. -/
theorem analyze_isolated (e : Engine) (x : Expr) {Γ : Env} {m₀ m : Machine}
    (hs : m₀.store.WellFormed) (hΓ : m₀.store.Scopes Γ []) (h : m₀.store.Confined [] m.store) :
    ∃ r₀ m₀' r m', Run.observe (e.analyze x Γ) m₀ = .ok r₀ m₀'
      ∧ Run.observe (e.analyze x Γ) m = .ok r m' ∧ SameOutcome m₀'.store m'.store r₀ r
      ∧ m.store.Confined [] m'.store ∧ ∀ t, r = .ok t → m'.store.Covers t := by
  have hρ := Var.shift_injective h.size_le
  have hconf : Ends (x.analyze e.supply Γ []) (e.tracedSession m)
      (fun t σ' => m.store.Confined [] σ'.store ∧ σ'.store.Covers t)
      fun _ σ' => m.store.Confined [] σ'.store :=
    analyze_confined x h.wellFormed (hΓ.mono h.size_le)
  have hmatched : Matched (m₀.store.Advances (Var.shift m₀.store.size m.store.size) m.store)
      (x.analyze e.supply Γ []) (e.tracedSession m₀) (x.analyze e.supply Γ [])
      (e.tracedSession m) fun t₁ t₂ s₁ s₂ =>
        s₁.Mirrors (Var.shift m₀.store.size m.store.size) s₂ t₁ t₂ :=
    analyze_matched hρ x (show (e.tracedSession m₀).store.Paired _ (e.tracedSession m).store from
      h.paired hs) (h.aligns hs hΓ)
  rw [observe_analyze, observe_analyze]
  cases hmatched with
  | @ok t₀ t σ₀ σ hx₀ hx _ ht =>
      obtain ⟨hconf, hcov⟩ := hconf.of_ok hx
      rw [hx₀, hx]
      refine ⟨_, _, _, _, rfl, rfl, .type (ht.twin.variant hρ), hconf, fun u hu => ?_⟩
      exact Except.ok.inj hu ▸ hcov
  | @error err₀ err σ₀ σ hx₀ hx _ hlike =>
      have hconf := hconf.of_error hx
      rw [hx₀, hx]
      exact ⟨_, _, _, _, rfl, rfl, .error hlike, hconf, fun _ hu => nomatch hu⟩

/-- Analyses one after another, from a point that the session has come to. -/
theorem mapM_analyze_isolated (e : Engine) (xs : List Expr) {Γ : Env} {m₀ m : Machine}
    (hs : m₀.store.WellFormed) (hΓ : m₀.store.Scopes Γ []) (h : m₀.store.Confined [] m.store) :
    ∃ rs m', (xs.mapM fun x => Run.observe (e.analyze x Γ)) m = .ok rs m'
      ∧ m.store.Confined [] m'.store
      ∧ List.Forall₂ (fun x r => ∃ r₀ m₀', Run.observe (e.analyze x Γ) m₀ = .ok r₀ m₀'
          ∧ SameOutcome m₀'.store m'.store r₀ r) xs rs := by
  induction xs generalizing m with
  | nil => exact ⟨[], m, rfl, .refl h.wellFormed [], .nil⟩
  | cons x xs ih =>
      obtain ⟨r₀, m₀', r, m₁, hx₀, hx, hsame, hconf, hcov⟩ := e.analyze_isolated x hs hΓ h
      obtain ⟨rs, m', hxs, hlater, hrest⟩ := ih (h.trans hconf fun _ hf => nomatch hf)
      refine ⟨r :: rs, m', ?_, hconf.trans hlater (fun _ hf => nomatch hf), .cons ?_ hrest⟩
      · rw [List.mapM_cons, bind_of_ok hx, bind_of_ok hxs]
        rfl
      · exact ⟨r₀, m₀', hx₀, hsame.later hconf.wellFormed hcov hlater⟩

end Engine

/-- An analysis binds no variable of the store that it starts from, save those that the fixed
variables show. So expressions that are analysed in turn have the outcomes that they have alone,
whichever of them fail. -/
theorem analyses_isolated :
    (∀ (p : SupplyId) (Γ : Env) (fixed : List Var) (x : Expr) (σ : Session),
      σ.store.WellFormed → σ.store.Scopes Γ fixed →
      ∀ v : Var, v.index < σ.store.size → σ.store.link? v = none → v ∉ σ.store.varsOf fixed →
        (σ.after (x.analyze p Γ fixed)).store.link? v = none)
    ∧ ∀ (e : Engine) (Γ : Env) (xs : List Expr) (m : Machine),
      m.store.WellFormed → m.store.Scopes Γ [] →
      ∃ rs m', (xs.mapM fun x => Run.observe (e.analyze x Γ)) m = .ok rs m'
        ∧ List.Forall₂ (fun x r => ∃ r₀ m₀, Run.observe (e.analyze x Γ) m = .ok r₀ m₀
            ∧ SameOutcome m₀.store m'.store r₀ r) xs rs := by
  constructor
  · intro p Γ fixed x σ hs hscope v hv hunbound hfixed
    refine Ends.after (A := fun σ' => σ'.store.link? v = none) ?_
    exact Ends.mono (analyze_confined x hs hscope)
      (fun _ _ h => h.1.unbound_of_not_mem hs hv hunbound hfixed)
      fun _ _ h => h.unbound_of_not_mem hs hv hunbound hfixed
  · intro e Γ xs m hs hΓ
    obtain ⟨rs, m', hrun, -, hall⟩ := e.mapM_analyze_isolated xs hs hΓ (.refl hs [])
    exact ⟨rs, m', hrun, hall⟩

/-- Two analyses succeed, and between them three fail, each with another error. -/
theorem analyses_isolated_sample :
    let Γ : Env := (Env.empty.extend "xs" (.var ⟨0⟩)).extend "f" (.fn (.var ⟨0⟩) (.var ⟨2⟩))
    let good : Expr := .app (.var "f") (.var "xs")
    let bad : Expr := .app (.var "xs") (.var "f")
    let xs : List Expr := [good, bad, .lam "x" (.app (.var "x") (.var "x")), .var "y", good]
    let e : Engine := { name := "e", supply := 0, registry := .empty }
    let σ : Session := { store := Store.sample }
    Store.sample.WellFormed ∧ Store.sample.Scopes Γ [⟨1⟩]
      ∧ (∃ err σ', bad.analyze 0 Γ [⟨1⟩] σ = .error err σ')
      ∧ Store.sample.link? ⟨2⟩ = none ∧ ⟨2⟩ ∉ Store.sample.varsOf [⟨1⟩]
      ∧ (σ.after (bad.analyze 0 Γ [⟨1⟩])).store.link? ⟨2⟩ = none
      ∧ ∃ rs m', (xs.mapM fun x => Run.observe (e.analyze x Γ)) { session := σ } = .ok rs m'
        ∧ rs.map Except.isOk = [true, false, false, false, true]
        ∧ List.Forall₂ (fun x r => ∃ r₀ m₀,
            Run.observe (e.analyze x Γ) { session := σ } = .ok r₀ m₀
              ∧ SameOutcome m₀.store m'.store r₀ r) xs rs := by
  intro Γ good bad xs e σ
  have hcov : ∀ i < 3, Store.sample.Covers (.var ⟨i⟩) := fun _ hi => Store.covers_var.mpr hi
  have hscope : Store.sample.Scopes Γ [⟨1⟩] :=
    ((Store.Scopes.empty (by decide)).extend (hcov 0 (by decide)) "xs").extend
      (Store.covers_fn.mpr ⟨hcov 0 (by decide), hcov 2 (by decide)⟩) "f"
  obtain ⟨err, σ', hfail, -⟩ : Fails (bad.analyze 0 Γ [⟨1⟩] σ) fun _ _ => True := by decide +kernel
  obtain ⟨rs, m', hrun, hkinds⟩ :
      Succeeds ((xs.mapM fun x => Run.observe (e.analyze x Γ)) { session := σ }) fun rs _ =>
        rs.map Except.isOk = [true, false, false, false, true] := by decide +kernel
  have hshown : (⟨2⟩ : Var) ∉ Store.sample.varsOf [⟨1⟩] := by decide +kernel
  obtain ⟨hunbound, hsame⟩ := analyses_isolated
  obtain ⟨rs', m'', hrun', hall⟩ := hsame e Γ xs { session := σ } Store.sample_wellFormed
    hscope.leave
  cases hrun.symm.trans hrun'
  refine ⟨Store.sample_wellFormed, hscope, ⟨err, σ', hfail⟩, rfl, hshown, ?_, rs, m', hrun, hkinds,
    hall⟩
  exact hunbound 0 Γ [⟨1⟩] bad σ Store.sample_wellFormed hscope ⟨2⟩ (by decide) rfl hshown

end Overload
