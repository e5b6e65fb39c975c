import Overload.Proofs.CallSteps
import Overload.Proofs.ValuePrincipality

/-!
# Partial applications

The type that is reported for a function which holds some of its arguments says exactly what is
needed to complete it (`partial_application_exact`): fitting further arguments to the reported type
succeeds where fitting all arguments to the signature does, and gives the same result up to the
names of variables. Both inferences are principal for the same types, the ones that an instance of
the signature leaves after all arguments; that settles when they succeed, and two principal types
are always variants of each other.

A partial application without a type is therefore beyond completion, also at any later time: stores
only grow, and a larger store gives a value no new types.
-/

namespace Overload

/-! ## Variants -/

/-- The second type is the first with its variables renamed, different ones to different ones. -/
def Ty.Variant (t u : Ty) : Prop :=
  ∃ f : Var → Var, (∀ v ∈ t.vars, ∀ w ∈ t.vars, f v = f w → v = w)
    ∧ t.subst (fun v => .var (f v)) = u

/-- A substitution that can be undone is a renaming. -/
theorem Ty.variant_of_instances {t u : Ty} {ρ ρ' : Subst} (h : t.subst ρ = u)
    (h' : u.subst ρ' = t) : t.Variant u := by
  have hback : ∀ v ∈ t.vars, (ρ v).subst ρ' = .var v := by
    refine Ty.eq_of_subst_eq ?_
    rw [← Ty.subst_subst, h, h', Ty.subst_id]
  have hex : ∀ v, ∃ w, v ∈ t.vars → ρ v = .var w := by
    intro v
    cases hρ : ρ v with
    | var w => exact ⟨w, fun _ => rfl⟩
    | con c args =>
        refine ⟨v, fun hv => ?_⟩
        have hv := hback v hv
        rw [hρ, Ty.subst_con] at hv
        cases hv
  obtain ⟨f, hvar⟩ := Classical.skolem.mp hex
  refine ⟨f, fun v hv w hw heq => ?_, ?_⟩
  · have hsame := (hback v hv).symm.trans ((congrArg (Ty.subst ρ')
      ((hvar v hv).trans (heq ▸ (hvar w hw).symm))).trans (hback w hw))
    exact Ty.var.inj hsame
  · rw [← h]
    exact (Ty.subst_congr hvar).symm

theorem Principal.variant {x y : Infer Ty} {σ τ σ₁ τ₁ : Session} {P : Ty → Prop} {t u : Ty}
    (hx : Principal x σ P) (hy : Principal y τ P) (ht : x σ = .ok t σ₁) (hu : y τ = .ok u τ₁) :
    (σ₁.store.resolve t).Variant (τ₁.store.resolve u) := by
  have ht := Ends.of_ok hx ht
  have hu := Ends.of_ok hy hu
  obtain ⟨ρ, hρ⟩ := (ht _).mp ((hu _).mpr ⟨.var, Ty.subst_id _⟩)
  obtain ⟨ρ', hρ'⟩ := (hu _).mp ((ht _).mpr ⟨.var, Ty.subst_id _⟩)
  exact Ty.variant_of_instances hρ hρ'

/-! ## What is left after more arguments -/

theorem Signature.leaves_append {s : Store} {sig : Signature} {vs ws : List Value} {u : Ty} :
    sig.Leaves s (vs ++ ws) u
      ↔ ∃ us, List.Forall₂ (Inhabits s) ws us ∧ sig.Leaves s vs (.chain us u) := by
  constructor
  · rintro ⟨ψ, ts, hts, heq⟩
    have hvs := List.forall₂_take vs.length hts
    have hws := List.forall₂_drop vs.length hts
    rw [List.take_left] at hvs
    rw [List.drop_left] at hws
    refine ⟨_, hws, ψ, _, hvs, ?_⟩
    rw [heq, ← Ty.chain_append, List.take_append_drop]
  · rintro ⟨us, hws, ψ, ts, hvs, heq⟩
    exact ⟨ψ, ts ++ us, List.rel_append hvs hws, heq.trans (Ty.chain_append ts us u).symm⟩

/-- The type of the result when a function is applied by its type alone. -/
def Value.resultOf (func : Value) (p : SupplyId) (args : List Value) : Infer Ty := do
  let t ← func.typeOf p
  let ts ← Value.typesOf p args
  let r ← p.freshTy
  unify t (.chain ts r)
  return r

theorem Store.covers_chain {s : Store} {ts : List Ty} {t : Ty} (hts : ∀ u ∈ ts, s.Covers u)
    (ht : s.Covers t) : s.Covers (.chain ts t) := by
  induction ts with
  | nil => exact ht
  | cons u us ih =>
      obtain ⟨hu, hus⟩ := List.forall_mem_cons.mp hts
      exact covers_fn.mpr ⟨hu, ih hus⟩

section principal

variable {σ : Session} {p : SupplyId}

theorem principal_applyTo {sig : Signature} (name : String) {args : List Value}
    (hs : σ.store.WellFormed) (hsig : σ.store.Covers sig.toTy)
    (hargs : ∀ v ∈ args, v.Plain σ.store) :
    Principal (do return (← sig.applyTo p name args).2) σ (sig.Leaves σ.store args) := by
  have hrefl := Store.Confined.refl hs []
  refine .of_sound_of_complete hs ?_ fun θ u hθ hu => ?_
  · refine Ends.bind ((Signature.applyTo_sound hs hrefl hsig hargs fun _ h₁ =>
      typesOf_sound hs p args h₁ hargs).and (Signature.applyTo_keeps hrefl
        (Value.Plain.admitsAll hargs σ.store []))) ?_
    rintro r σ₁ ⟨hr, ⟨h₁, -⟩, -⟩
    exact Ends.pure ⟨hr, h₁.wellFormed⟩
  · refine Ends.bind (Signature.applyTo_complete hs hrefl hsig hargs
      (fun _ _ _ h₁ hθ₁ hus => typesOf_complete hs p args h₁ hargs hθ₁ hus) hθ hu) fun r σ₁ hr => ?_
    exact Ends.pure hr

theorem principal_resultOf {func : Value} {args : List Value} (hs : σ.store.WellFormed)
    (hfunc : func.Plain σ.store) (hargs : ∀ v ∈ args, v.Plain σ.store) :
    Principal (func.resultOf p args) σ fun u =>
      ∃ us, List.Forall₂ (Inhabits σ.store) args us ∧ Inhabits σ.store func (.chain us u) := by
  have hrefl := Store.Confined.refl hs []
  refine .of_sound_of_complete hs ?_ fun θ u hθ ⟨us, hus, hchain⟩ => ?_
  · rw [Value.resultOf]
    refine Ends.bind ((typeOf_sound hs p func hrefl hfunc).and
      (typeOf_keeps p func hrefl (hfunc.admits σ.store []))) ?_
    rintro t σ₁ ⟨ht, ⟨h₁, -⟩, hown⟩
    refine Ends.bind ((typesOf_sound hs p args h₁ hargs).and
      (typesOf_keeps p args h₁ (Value.Plain.admitsAll hargs σ.store []))) ?_
    rintro ts σ₂ ⟨hts, ⟨h₂, hext₂⟩, howns⟩
    refine Ends.lift_bind ?_
    have halike := Store.alike_fresh h₂.wellFormed p
    have hchain := Store.covers_chain (fun u hu => (howns u hu).covers.mono halike.size_le)
      (Store.covers_fresh p σ₂.store)
    have hunify := unify_adds (σ := { σ₂ with store := (p.fresh σ₂.store).2 })
      halike.wellFormed (hown.covers.mono (hext₂.trans halike.extends).size_le) hchain
    refine Ends.bind hunify fun _ σ₃ h₃ => ?_
    refine Ends.pure ⟨fun θ hθ => ?_, h₃.wellFormed⟩
    obtain ⟨hθ₂, heq⟩ := (h₃.solved_iff θ).mp hθ
    have hθ₂ := (halike.solved_iff θ).mp hθ₂
    have ht := ht θ (hext₂.solved θ hθ₂)
    rw [solves_singleton.mp heq, Ty.subst_chain] at ht
    exact ⟨_, List.forall₂_map_right_iff.mpr (hts.imp fun v u hvu => hvu θ hθ₂), ht⟩
  · rw [Value.resultOf]
    refine Ends.bind (Ends.and (typeOf_complete hs p func hrefl hfunc hθ hchain)
      (typeOf_keeps p func hrefl (hfunc.admits σ.store []))) ?_
    rintro t σ₁ ⟨⟨θ₁, hθ₁, hold₁, ht⟩, ⟨h₁, hext₁⟩, hown⟩
    refine Ends.bind ((typesOf_complete hs p args h₁ hargs hθ₁ hus).and
      (typesOf_keeps p args h₁ (Value.Plain.admitsAll hargs σ.store []))) ?_
    rintro ts σ₂ ⟨⟨θ₂, hθ₂, hold₂, hts⟩, ⟨h₂, hext₂⟩, howns⟩
    refine Ends.lift_bind ?_
    obtain ⟨θ₃, hθ₃, hold₃, hr⟩ := hθ₂.fresh h₂.wellFormed p u
    have halike := Store.alike_fresh h₂.wellFormed p
    have hchain := Store.covers_chain (fun u hu => (howns u hu).covers.mono halike.size_le)
      (Store.covers_fresh p σ₂.store)
    have hmap : ts.map (Ty.subst θ₃) = us := by
      rw [← hts]
      exact List.map_congr_left fun u hu => hold₃.subst_eq (howns u hu).covers
    have heq : t.subst θ₃ = (Ty.chain ts (.var (p.fresh σ₂.store).1)).subst θ₃ := by
      rw [Ty.subst_chain, hmap, Ty.subst_var, hr, ← ht]
      exact (hold₃.trans hext₂.size_le hold₂).subst_eq hown.covers
    refine Ends.bind (unify_realizes (σ := { σ₂ with store := (p.fresh σ₂.store).2 })
      halike.wellFormed (hown.covers.mono (hext₂.trans halike.extends).size_le) hchain hθ₃ heq) ?_
    rintro _ σ₃ ⟨-, hθ₄⟩
    have hold := (hold₃.trans hext₂.size_le hold₂).trans hext₁.size_le hold₁
    exact Ends.pure ⟨θ₃, hθ₄, hold, (Ty.subst_var ..).trans hr⟩

theorem ok_snd {x : Infer (α × Ty)} {r : α × Ty} {σ' : Session} (h : x σ = .ok r σ') :
    (do return (← x).2 : Infer Ty) σ = .ok r.2 σ' := by
  simp only [bind, EStateM.bind, h]
  rfl

theorem error_snd {x : Infer (α × Ty)} {err : TypeError} {σ' : Session}
    (h : x σ = .error err σ') : (do return (← x).2 : Infer Ty) σ = .error err σ' := by
  simp only [bind, EStateM.bind, h]

theorem exists_ok_snd_iff {x : Infer (α × Ty)} :
    (∃ r σ', x σ = .ok r σ') ↔ ∃ t σ', (do return (← x).2 : Infer Ty) σ = .ok t σ' := by
  constructor
  · rintro ⟨r, σ', h⟩
    exact ⟨r.2, σ', ok_snd h⟩
  · rintro ⟨t, σ', h⟩
    cases hx : x σ with
    | ok r σ₁ => exact ⟨r, σ₁, rfl⟩
    | error err σ₁ =>
        simp only [bind, EStateM.bind, hx] at h
        cases h

end principal

/-- Without a type for the arguments it has, a function is refused with any further ones. -/
theorem refuses_of_not_inhabits {e : Engine} {m : Machine} {name : String} {sig : Signature}
    {bound args : List Value} (hs : m.session.store.WellFormed)
    (hsig : m.session.store.Covers sig.toTy) (hall : ∀ v ∈ bound ++ args, v.Plain m.session.store)
    (hlen : bound.length + args.length = sig.arity)
    (hno : ∀ u, ¬sig.Leaves m.session.store (bound ++ args) u) :
    e.Refuses m name sig bound args fun f => ∃ err, f = .type err ∧ err ≠ .cyclic := by
  have hprincipal := principal_applyTo (σ := (m.setActive (some e.settings.trace)).session)
    (p := e.supply) name hs hsig hall
  cases hx : sig.applyTo e.supply name (bound ++ args)
      (m.setActive (some e.settings.trace)).session with
  | ok r σ' =>
      obtain ⟨u, hu⟩ := hprincipal.exists_ok_iff.mp (exists_ok_snd_iff.mp ⟨r, σ', hx⟩)
      exact absurd hu (hno u)
  | error err σ' =>
      have hcyclic := (Ends.of_error hprincipal (error_snd hx)).1
      exact refuses_of_accept hlen (accept_of_error hx) ⟨err, rfl, hcyclic⟩

/-- A function that holds `vs` is applied to `ws`. To fit all the arguments to the signature at once
succeeds if and only if it does to type the function with what it holds and to apply that type, and
then the results are the same up to the names of variables. If the function has no type with what it
holds, every complete call of it is refused, whatever the other arguments are and whatever has been
inferred in between. -/
theorem partial_application_exact {name : String} {sig : Signature} {code : Code}
    {vs ws : List Value} {p q : SupplyId} {σ : Session} (hs : σ.store.WellFormed)
    (hfunc : (Value.typed name sig code vs).Plain σ.store) (hws : ∀ w ∈ ws, w.Plain σ.store) :
    ((∃ r σ', sig.applyTo p name (vs ++ ws) σ = .ok r σ')
        ↔ ∃ t σ', (Value.typed name sig code vs).resultOf q ws σ = .ok t σ')
      ∧ (∀ r σ₁ t σ₂, sig.applyTo p name (vs ++ ws) σ = .ok r σ₁ →
          (Value.typed name sig code vs).resultOf q ws σ = .ok t σ₂ →
          (σ₁.store.resolve r.2).Variant (σ₂.store.resolve t))
      ∧ ∀ err σ', (Value.typed name sig code vs).typeOf q σ = .error err σ' →
          ∀ (e : Engine) (m : Machine) (more args : List Value),
            σ.store.Extends m.session.store → (∀ w ∈ more ++ args, w.Plain m.session.store) →
            (vs ++ more).length + args.length = sig.arity →
            e.Refuses m name sig (vs ++ more) args
              fun f => ∃ err, f = .type err ∧ err ≠ .cyclic := by
  have hsig := Signature.covers_toTy hfunc.inScope.signature
  have hall : ∀ v ∈ vs ++ ws, v.Plain σ.store := fun v hv =>
    (List.mem_append.mp hv).elim (hfunc.args v) (hws v)
  have happly := principal_applyTo (p := p) name hs hsig hall
  have hresult : Principal ((Value.typed name sig code vs).resultOf q ws) σ
      (sig.Leaves σ.store (vs ++ ws)) := by
    have h := principal_resultOf (p := q) hs hfunc hws
    simpa only [inhabits_typed, ← Signature.leaves_append] using h
  refine ⟨?_, fun r σ₁ t σ₂ hr ht => ?_, fun err σ' herr e m more args hext hmore hlen => ?_⟩
  · rw [exists_ok_snd_iff, happly.exists_ok_iff, hresult.exists_ok_iff]
  · exact happly.variant hresult (ok_snd hr) ht
  · have hno := (Ends.of_error (principal_typeOf hs hfunc) herr).2
    refine refuses_of_not_inhabits hext.wellFormed (hsig.mono hext.size_le) ?_ hlen fun u hu => ?_
    · rw [List.append_assoc]
      exact fun v hv => (List.mem_append.mp hv).elim
        (fun hv => (hfunc.args v hv).mono hext.size_le) (hmore v)
    · rw [List.append_assoc, Signature.leaves_append] at hu
      obtain ⟨us, -, hleaves⟩ := hu
      exact hno _ (Inhabits.of_extends hext (inhabits_typed.mpr hleaves))

/-- Under `#0 := List #1`, a function of type `#0 -> #2 -> #1` that holds a list of integers can be
completed, and one that holds an integer cannot. -/
theorem partial_application_exact_sample :
    let sig : Signature := { params := [.var ⟨0⟩, .var ⟨2⟩], ret := .var ⟨1⟩ }
    let good := Value.typed "first" sig (.host 0) [.list [.int 1]]
    let bad := Value.typed "first" sig (.host 0) [.int 1]
    let σ : Session := { store := Store.sample }
    Store.sample.WellFormed ∧ good.Plain Store.sample ∧ bad.Plain Store.sample
      ∧ (∃ r σ₁ t σ₂, sig.applyTo 0 "first" [.list [.int 1], .bool true] σ = .ok r σ₁
        ∧ good.resultOf 0 [.bool true] σ = .ok t σ₂
        ∧ (σ₁.store.resolve r.2).Variant (σ₂.store.resolve t))
      ∧ (∃ err σ', bad.typeOf 0 σ = .error err σ')
      ∧ ∀ e : Engine, e.Refuses { session := σ } "first" sig [.int 1] [.bool true]
          fun f => ∃ err, f = .type err ∧ err ≠ .cyclic := by
  intro sig good bad σ
  have hscope : ∀ w ∈ sig.vars, w.index < Store.sample.size := by decide
  have hgood : good.Plain Store.sample :=
    ⟨fun w hw => hscope w (by simpa [good, Value.vars, Value.varsAll] using hw),
      by simp [good, Value.Native, Value.NativeAll]⟩
  have hbad : bad.Plain Store.sample :=
    ⟨fun w hw => hscope w (by simpa [bad, Value.vars, Value.varsAll] using hw),
      by simp [bad, Value.Native, Value.NativeAll]⟩
  have hbool : ∀ w ∈ [Value.bool true], w.Plain Store.sample := by
    intro w hw
    obtain rfl := List.mem_singleton.mp hw
    exact ⟨fun w hw => by simp [Value.vars] at hw, by simp [Value.Native]⟩
  obtain ⟨hiff, hvariant, -⟩ := partial_application_exact (p := 0) (q := 0) (σ := σ)
    Store.sample_wellFormed hgood hbool
  obtain ⟨-, -, hrefused⟩ := partial_application_exact (p := 0) (q := 0) (σ := σ)
    Store.sample_wellFormed hbad hbool
  refine ⟨Store.sample_wellFormed, hgood, hbad, ?_, ?_⟩
  · obtain ⟨r, σ₁, hr, -⟩ : Succeeds (sig.applyTo 0 "first" [.list [.int 1], .bool true] σ)
        fun _ _ => True := by decide +kernel
    obtain ⟨t, σ₂, ht⟩ := hiff.mp ⟨r, σ₁, hr⟩
    exact ⟨r, σ₁, t, σ₂, hr, ht, hvariant r σ₁ t σ₂ hr ht⟩
  · obtain ⟨err, σ₁, hr, -⟩ : Fails (bad.typeOf 0 σ) fun _ _ => True := by decide +kernel
    refine ⟨⟨err, σ₁, hr⟩, fun e => ?_⟩
    exact hrefused err σ₁ hr e { session := σ } [] [.bool true] (.refl Store.sample_wellFormed)
      hbool rfl

end Overload
