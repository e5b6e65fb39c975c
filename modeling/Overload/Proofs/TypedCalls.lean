import Overload.Proofs.HostRuns
import Overload.Proofs.PartialApplication

/-!
# Typed calls check exactly what the signature says

A call that completes the arguments of a typed function runs the code if and only if one
substitution turns the declared parameters into instances of the types of the arguments, and hands
the result on if and only if one substitution does so for the parameters and the result at once
(`typed_call_exact`).

That a result is accepted where it should be needs a solution of the store after the code has run in
which the declared result has the wanted value. It is patched together: on the variables of the call
it is the one that the arguments and the wanted result give, and on those that the code has touched
it is what the store says. The two do not meet, since a host cannot mention variables that it has
not been shown (`Store.Confined`).
-/

namespace Overload

/-! ## Arguments that fit -/

/-- The value has a type, and `u` is an instance of it. -/
def Value.Fits (p : SupplyId) (σ : Session) (v : Value) (u : Ty) : Prop :=
  ∃ t σ', v.typeOf p σ = .ok t σ' ∧ ∃ ρ : Subst, (σ'.store.resolve t).subst ρ = u

/-- Under `ψ` each declared parameter is an instance of the type of its argument. -/
def Signature.Matches (sig : Signature) (p : SupplyId) (σ : Session) (ψ : Subst)
    (args : List Value) : Prop :=
  ∀ q ∈ args.zip sig.params, q.1.Fits p σ ((σ.store.resolve q.2).subst ψ)

theorem Value.fits_iff {p : SupplyId} {σ : Session} {v : Value} {u : Ty}
    (hs : σ.store.WellFormed) (hv : v.Plain σ.store) : v.Fits p σ u ↔ Inhabits σ.store v u := by
  have hprincipal := principal_typeOf (p := p) hs hv
  constructor
  · rintro ⟨t, σ', hx, hu⟩
    exact (Ends.of_ok hprincipal hx u).mpr hu
  · intro hu
    obtain ⟨t, σ', hx⟩ := hprincipal.exists_ok_iff.mpr ⟨u, hu⟩
    exact ⟨t, σ', hx, (Ends.of_ok hprincipal hx u).mp hu⟩

theorem Store.resolve_chain (s : Store) (ts : List Ty) (t : Ty) :
    s.resolve (.chain ts t) = .chain (ts.map s.resolve) (s.resolve t) := by
  induction ts with
  | nil => rfl
  | cons u us ih => rw [Ty.chain_cons, resolve_fn, ih, List.map_cons, Ty.chain_cons]

theorem Ty.chain_inj {ts us : List Ty} {t u : Ty} (hlen : ts.length = us.length)
    (h : Ty.chain ts t = .chain us u) : ts = us ∧ t = u := by
  induction ts generalizing us with
  | nil =>
      obtain rfl := List.length_eq_zero_iff.mp hlen.symm
      exact ⟨rfl, h⟩
  | cons a as ih =>
      cases us with
      | nil => cases hlen
      | cons b bs =>
          simp only [Ty.chain_cons, Ty.fn, Ty.con.injEq, List.cons.injEq, true_and, and_true] at h
          obtain ⟨rfl, rfl⟩ := ih (Nat.succ.inj hlen) h.2
          exact ⟨by rw [h.1], rfl⟩

/-- With all arguments, what an instance of the signature leaves is an instance of the result. -/
theorem Signature.leaves_iff_matches {p : SupplyId} {σ : Session} {sig : Signature}
    {args : List Value} {u : Ty} (hs : σ.store.WellFormed) (hargs : ∀ v ∈ args, v.Plain σ.store)
    (hlen : args.length = sig.arity) :
    sig.Leaves σ.store args u
      ↔ ∃ ψ, sig.Matches p σ ψ args ∧ (σ.store.resolve sig.ret).subst ψ = u := by
  have hparams : ∀ ψ : Subst, sig.Matches p σ ψ args ↔ List.Forall₂ (Inhabits σ.store) args
      ((sig.params.map σ.store.resolve).map (Ty.subst ψ)) := by
    intro ψ
    rw [List.map_map, List.forall₂_map_right_iff, List.forall₂_iff_zip]
    constructor
    · exact fun h => ⟨hlen, fun hq =>
        (Value.fits_iff hs (hargs _ (List.of_mem_zip hq).1)).mp (h _ hq)⟩
    · exact fun h q hq => (Value.fits_iff hs (hargs _ (List.of_mem_zip hq).1)).mpr (h.2 hq)
  refine exists_congr fun ψ => ?_
  rw [hparams, Signature.toTy, Store.resolve_chain, Ty.subst_chain]
  constructor
  · rintro ⟨ts, hts, heq⟩
    have hlen' : ((sig.params.map σ.store.resolve).map (Ty.subst ψ)).length = ts.length := by
      rw [List.length_map, List.length_map]
      exact hlen.symm.trans hts.length_eq
    obtain ⟨rfl, rfl⟩ := Ty.chain_inj hlen' heq
    exact ⟨hts, rfl⟩
  · rintro ⟨hts, rfl⟩
    exact ⟨_, hts, rfl⟩

/-! ## The result -/

section result

variable {sig : Signature} {name : String} {args : List Value} {p : SupplyId} {σ σ₁ σ₂ : Session}
  {o : Opened} {ret : Ty} {v : Value}

theorem returnAs_sound (hs : σ.store.WellFormed) (hsig : σ.store.Covers sig.toTy)
    (hargs : ∀ v ∈ args, v.Plain σ.store) (happly : sig.applyTo p name args σ = .ok (o, ret) σ₁)
    (hext : σ₁.store.Extends σ₂.store) (hv : v.Plain σ₂.store) :
    Ends (v.returnAs p ret) σ₂
      (fun _ _ => ∃ u, sig.Leaves σ.store args u ∧ Inhabits σ₂.store v u)
      fun err _ => err ≠ .cyclic := by
  have hrefl := Store.Confined.refl hs []
  have hleaves := Ends.of_ok (Signature.applyTo_sound hs hrefl hsig hargs fun _ h₁ =>
    typesOf_sound hs p args h₁ hargs) happly
  have hret := (Ends.of_ok (Signature.applyTo_keeps hrefl
    (Value.Plain.admitsAll hargs σ.store [])) happly).2
  have hrefl₂ := Store.Confined.refl hext.wellFormed []
  rw [Value.returnAs]
  refine Ends.bind ((typeOf_sound hext.wellFormed p v hrefl₂ hv).and
    (typeOf_keeps p v hrefl₂ (hv.admits σ₂.store []))) ?_
  rintro t σ₃ ⟨ht, ⟨h₃, hext₃⟩, hown⟩
  have hunify := unify_adds h₃.wellFormed hown.covers
    (hret.covers.mono (hext.trans hext₃).size_le)
  refine Ends.mono hunify (fun _ σ₄ h₄ => ?_) fun _ _ h => h
  have hθ := Store.solvedBy_resolve h₄.wellFormed.acyclic
  obtain ⟨hθ₃, heq⟩ := (h₄.solved_iff _).mp hθ
  refine ⟨_, hleaves _ ((hext.trans hext₃).solved _ hθ₃), ?_⟩
  rw [← solves_singleton.mp heq]
  exact ht _ hθ₃

theorem returnAs_complete (hs : σ.store.WellFormed) (hsig : σ.store.Covers sig.toTy)
    (hargs : ∀ v ∈ args, v.Plain σ.store) (happly : sig.applyTo p name args σ = .ok (o, ret) σ₁)
    {fixed : List Var} (hconf : σ₁.store.Confined fixed σ₂.store)
    (hfixed : ∀ f ∈ fixed, f.index < σ.store.size) (hv : v.Plain σ₂.store) {u : Ty}
    (hleaves : sig.Leaves σ.store args u) (hu : Inhabits σ₂.store v u) :
    Ends (v.returnAs p ret) σ₂ (fun _ _ => True) fun _ _ => False := by
  have hrefl := Store.Confined.refl hs []
  have hkeeps := Ends.of_ok (Signature.applyTo_keeps hrefl
    (Value.Plain.admitsAll hargs σ.store [])) happly
  have hext₁ := hkeeps.1.2
  have hret := hkeeps.2
  -- `θ` is what the store says after the run, `θ₁` what the call alone asks for
  have hθ := Store.solvedBy_resolve hconf.wellFormed.acyclic
  obtain ⟨θ₁, hθ₁, hold₁, hret₁⟩ := Ends.of_ok (Signature.applyTo_complete hs hrefl hsig hargs
    (fun _ _ _ h₁ hθ₁ hus => typesOf_complete hs p args h₁ hargs hθ₁ hus)
    (hext₁.solved _ (hconf.solved _ hθ)) hleaves) happly
  have hθ₂ := hconf.solved_patch hθ hθ₁ fun f hf => hold₁ f (hfixed f hf)
  have hrefl₂ := Store.Confined.refl hconf.wellFormed []
  rw [Value.returnAs]
  refine Ends.bind (Ends.and (typeOf_complete hconf.wellFormed p v hrefl₂ hv hθ₂ hu)
    (typeOf_keeps p v hrefl₂ (hv.admits σ₂.store []))) ?_
  rintro t σ₃ ⟨⟨θ₃, hθ₃, hold₃, ht⟩, ⟨h₃, hext₃⟩, hown⟩
  have hret₂ := hret.covers.mono hconf.size_le
  have heq : t.subst θ₃ = ret.subst θ₃ := by
    rw [ht, hold₃.subst_eq hret₂, hret.covers.subst_patch, hret₁]
  exact Ends.mono (unify_realizes h₃.wellFormed hown.covers (hret₂.mono hext₃.size_le) hθ₃ heq)
    (fun _ _ _ => trivial) fun _ _ h => h

end result

/-! ## Calls -/

section call

variable {e : Engine} {m m₁ : Machine} {name : String} {sig : Signature} {bound args : List Value}

/-- Where the code, run from `m₁`, returns a value, the call returns it if one substitution fits the
arguments to the parameters and the value to the declared result, and ends with a type error if none
does. The host and the registry know what there was before the call. -/
def Engine.Judges (e : Engine) (m : Machine) (name : String) (sig : Signature)
    (bound args : List Value) (m₁ : Machine) : Prop :=
  ∀ (h : Host) (known : List Var) (n : Nat) (code : Code) (v : Value) (m₂ : Machine),
    (∀ w ∈ known, w.index < m.store.size) → h.Knows known → e.registry.Knows known →
    h.runCode (h.applyWithin n) e name code (bound ++ args) m₁ = .ok v m₂ → v.Native →
    ((∃ m₃, h.callTyped (h.applyWithin n) e name sig code bound args m = .ok (.applied v) m₃)
        ↔ ∃ ψ, sig.Matches e.supply m.session ψ (bound ++ args)
          ∧ v.Fits e.supply m₂.session ((m.store.resolve sig.ret).subst ψ))
      ∧ ((¬∃ ψ, sig.Matches e.supply m.session ψ (bound ++ args)
            ∧ v.Fits e.supply m₂.session ((m.store.resolve sig.ret).subst ψ)) →
          ∃ err m₃, h.callTyped (h.applyWithin n) e name sig code bound args m
              = .error (.type err) m₃ ∧ err ≠ .cyclic)

theorem exists_matches_iff (hs : m.store.WellFormed) (hall : ∀ v ∈ bound ++ args, v.Plain m.store)
    (hlen : bound.length + args.length = sig.arity) {m₂ : Machine} (hs₂ : m₂.store.WellFormed)
    {v : Value} (hv : v.Plain m₂.store) :
    (∃ ψ, sig.Matches e.supply m.session ψ (bound ++ args)
        ∧ v.Fits e.supply m₂.session ((m.store.resolve sig.ret).subst ψ))
      ↔ ∃ u, sig.Leaves m.store (bound ++ args) u ∧ Inhabits m₂.store v u := by
  have hlen : (bound ++ args).length = sig.arity := by rwa [List.length_append]
  have hleaves : ∀ {u}, sig.Leaves m.store (bound ++ args) u
      ↔ ∃ ψ, sig.Matches e.supply m.session ψ (bound ++ args)
        ∧ (m.store.resolve sig.ret).subst ψ = u := Signature.leaves_iff_matches hs hall hlen
  constructor
  · rintro ⟨ψ, hψ, hfits⟩
    exact ⟨_, hleaves.mpr ⟨ψ, hψ, rfl⟩, (Value.fits_iff hs₂ hv).mp hfits⟩
  · rintro ⟨u, hu, hinhabits⟩
    obtain ⟨ψ, hψ, rfl⟩ := hleaves.mp hu
    exact ⟨ψ, hψ, (Value.fits_iff hs₂ hv).mpr hinhabits⟩

theorem judges_of_applyTo (hs : m.store.WellFormed) (hsig : m.store.Covers sig.toTy)
    (hall : ∀ v ∈ bound ++ args, v.Plain m.store)
    (hlen : bound.length + args.length = sig.arity)
    (hc : sig.constraints = [] ∨ e.settings.checkConstraints = false)
    (hcheck : e.settings.checkResult = true) {o : Opened} {ret : Ty} {σ₁ : Session}
    (happly : sig.applyTo e.supply name (bound ++ args)
      (m.setActive (some e.settings.trace)).session = .ok (o, ret) σ₁) :
    e.Judges m name sig bound args { m with session := σ₁ } := by
  intro h known n code v m₂ hknown hhost hreg hrun hnative
  have hcall := callTyped_of_accept hlen (accept_of_ok happly hc) h (h.applyWithin n) code
  have hrefl : m.store.Confined [] (m.setActive (some e.settings.trace)).session.store :=
    .refl hs []
  have hext₁ := (Ends.of_ok (Signature.applyTo_keeps hrefl
    (Value.Plain.admitsAll hall m.store [])) happly).1.2
  obtain ⟨fixed, hfixed, hconf, hscope⟩ := runCode_confined (m := { m with session := σ₁ })
    hext₁.wellFormed hext₁.size_le hknown (fun v hv => (hall v hv).inScope) hhost hreg hrun
  have hv : v.Plain m₂.store := ⟨hscope, hnative⟩
  have hsound := returnAs_sound (σ := (m.setActive (some e.settings.trace)).session) hs hsig hall
    happly hconf.toExtends hv
  have hrun' : h.runCode (h.applyWithin n) e name code (bound ++ args)
      { m.setActive (some e.settings.trace) with session := σ₁ } = .ok v m₂ := hrun
  rw [exists_matches_iff hs hall hlen hconf.wellFormed hv, hcall, hrun', Engine.finish]
  cases hreturn : v.returnAs e.supply ret m₂.session with
  | ok _ σ₃ =>
      have hinspect : e.inspect ret [] v m₂ = .ok () { m₂ with session := σ₃ } :=
        inspect_of_ok hcheck hreturn
      obtain ⟨m₃, hm₃⟩ := conclude_of_ok name hinspect
      rw [hm₃]
      have hyes := hsound.of_ok hreturn
      exact ⟨⟨fun _ => hyes, fun _ => ⟨_, rfl⟩⟩, fun hno => absurd hyes hno⟩
  | error err σ₃ =>
      rw [conclude_of_error name (inspect_of_error hcheck hreturn)]
      have hno : ¬∃ u, sig.Leaves m.store (bound ++ args) u ∧ Inhabits m₂.store v u :=
        fun ⟨u, hu, hinhabits⟩ =>
          (returnAs_complete (σ := (m.setActive (some e.settings.trace)).session) hs hsig hall
            happly hconf hfixed hv hu hinhabits).of_error hreturn
      refine ⟨⟨fun ⟨m₃, hm₃⟩ => (nomatch hm₃), fun hyes => absurd hyes hno⟩, fun _ => ?_⟩
      exact ⟨err, _, rfl, hsound.of_error hreturn⟩

/-- The code of a complete call runs exactly where the arguments fit the parameters, and its result
is returned exactly where it fits as well. -/
theorem typed_call_exact (e : Engine) (name : String) (bound args : List Value)
    (hs : m.store.WellFormed) (hsig : m.store.Covers sig.toTy)
    (hall : ∀ v ∈ bound ++ args, v.Plain m.store)
    (hlen : bound.length + args.length = sig.arity)
    (hc : sig.constraints = [] ∨ e.settings.checkConstraints = false) :
    ((∃ ψ, sig.Matches e.supply m.session ψ (bound ++ args))
        ↔ ∃ m₁, e.Invokes m name sig bound args m₁
          ∧ (e.settings.checkResult = true → e.Judges m name sig bound args m₁))
      ∧ ((¬∃ ψ, sig.Matches e.supply m.session ψ (bound ++ args)) →
          e.Refuses m name sig bound args fun f => ∃ err, f = .type err ∧ err ≠ .cyclic) := by
  have hmatches : (∃ ψ, sig.Matches e.supply m.session ψ (bound ++ args))
      ↔ ∃ u, sig.Leaves m.store (bound ++ args) u := by
    have hlen : (bound ++ args).length = sig.arity := by rwa [List.length_append]
    constructor
    · exact fun ⟨ψ, hψ⟩ => ⟨_, (Signature.leaves_iff_matches hs hall hlen).mpr ⟨ψ, hψ, rfl⟩⟩
    · rintro ⟨u, hu⟩
      obtain ⟨ψ, hψ, -⟩ := (Signature.leaves_iff_matches hs hall hlen).mp hu
      exact ⟨ψ, hψ⟩
  have hrefuses : (¬∃ u, sig.Leaves m.store (bound ++ args) u) →
      e.Refuses m name sig bound args fun f => ∃ err, f = .type err ∧ err ≠ .cyclic := fun hno =>
    refuses_of_not_inhabits hs hsig hall hlen fun u hu => hno ⟨u, hu⟩
  rw [hmatches]
  refine ⟨⟨fun hu => ?_, fun ⟨m₁, hinvokes, _⟩ => ?_⟩, hrefuses⟩
  · have hprincipal := principal_applyTo (σ := (m.setActive (some e.settings.trace)).session)
      (p := e.supply) name hs hsig hall
    obtain ⟨⟨o, ret⟩, σ₁, happly⟩ := exists_ok_snd_iff.mpr (hprincipal.exists_ok_iff.mpr hu)
    exact ⟨_, invokes_of_accept hlen (accept_of_ok happly hc), fun hcheck =>
      judges_of_applyTo hs hsig hall hlen hc hcheck happly⟩
  · by_contra hno
    exact (hrefuses hno).not_invokes hinvokes

end call

/-- Under `#0 := List #1`, a function of type `#0 -> #1` runs on a list of integers and may return
an integer, and does not run on an integer. -/
theorem typed_call_exact_sample :
    let sig : Signature := { params := [.var ⟨0⟩], ret := .var ⟨1⟩ }
    let e : Engine := { name := "main", supply := 0, registry := .empty }
    let m : Machine := { session := { store := Store.sample } }
    let h : Host := { functions := #[fun _ => .done (.int 2)] }
    let items := Value.list [.int 1]
    m.store.WellFormed ∧ m.store.Covers sig.toTy ∧ items.Plain m.store ∧ (Value.int 1).Plain m.store
      ∧ (∃ m₁, e.Invokes m "head" sig [] [items] m₁)
      ∧ (∃ m₃, h.callTyped (h.applyWithin 0) e "head" sig (.host 0) [] [items] m
          = .ok (.applied (.int 2)) m₃)
      ∧ e.Refuses m "head" sig [] [.int 1] fun f => ∃ err, f = .type err ∧ err ≠ .cyclic := by
  intro sig e m h items
  have hs : m.store.WellFormed := Store.sample_wellFormed
  have hsig : m.store.Covers sig.toTy := by
    change ∀ w ∈ sig.toTy.vars, w.index < Store.sample.size
    decide
  have hitems : items.Plain m.store :=
    ⟨fun w hw => by simp [items, Value.vars, Value.varsAll] at hw,
      by simp [items, Value.Native, Value.NativeAll]⟩
  have hint : ∀ {n : Int64}, (Value.int n).Plain m.store :=
    ⟨fun w hw => by simp [Value.vars] at hw, by simp [Value.Native]⟩
  have hparam : Store.sample.resolve (.var ⟨0⟩) = .list (.var ⟨1⟩) := by decide
  have hret : Store.sample.resolve (.var ⟨1⟩) = .var ⟨1⟩ := by decide
  let ψ : Subst := fun _ => .nullary .int
  have hψ : sig.Matches 0 m.session ψ [items] := by
    intro q hq
    obtain rfl : q = (items, .var ⟨0⟩) := List.mem_singleton.mp hq
    refine (Value.fits_iff hs hitems).mpr ?_
    change Inhabits Store.sample items ((Store.sample.resolve (.var ⟨0⟩)).subst ψ)
    rw [hparam, Ty.subst_list]
    exact .list fun v hv => List.mem_singleton.mp hv ▸ .int
  have hno : ¬∃ ψ, sig.Matches 0 m.session ψ [.int 1] := by
    rintro ⟨ψ, hψ⟩
    have hfits := (Value.fits_iff hs hint).mp (hψ (.int 1, .var ⟨0⟩) (List.mem_singleton.mpr rfl))
    change Inhabits Store.sample (.int 1) ((Store.sample.resolve (.var ⟨0⟩)).subst ψ) at hfits
    rw [hparam, Ty.subst_list] at hfits
    cases hfits
  obtain ⟨m₁, hinvokes, hjudges⟩ := (typed_call_exact e "head" [] [items] hs hsig
    (fun v hv => List.mem_singleton.mp hv ▸ hitems) rfl (.inl rfl)).1.mp ⟨ψ, hψ⟩
  refine ⟨hs, hsig, hitems, hint, ⟨m₁, hinvokes⟩, ?_, ?_⟩
  · have hhost : h.Knows [] := by
      refine ⟨fun index args => ?_, fun name e he => nomatch he⟩
      cases index with
      | zero => simp [h, Host.function, Action.Knows, Value.vars]
      | succ n => simp [h, Host.function, Action.Knows]
    have hreg : e.registry.Knows [] := fun cls ty record name imp hrecord => nomatch hrecord
    refine (hjudges rfl h [] 0 (.host 0) (.int 2) _ (fun w hw => nomatch hw) hhost hreg rfl
      hint.native).1.mpr ⟨ψ, hψ, .nullary .int, _, by rw [Value.typeOf]; rfl, .var, ?_⟩
    change _ = (Store.sample.resolve (.var ⟨1⟩)).subst ψ
    rw [hret]
    simp [Ty.nullary, ψ]
  · exact (typed_call_exact e "head" [] [.int 1] hs hsig
      (fun v hv => List.mem_singleton.mp hv ▸ hint) rfl (.inl rfl)).2 hno

end Overload
