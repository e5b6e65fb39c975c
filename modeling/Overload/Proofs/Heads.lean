import Overload.Proofs.Constraints
import Overload.Proofs.Currying
import Overload.Proofs.TypedCalls

/-!
# The constructor that a type begins with

A method looks at the constructor of the value that it dispatches on (`Value.con`), which is read
off the value at once. The type of the value is inferred, with new variables and unifications on
the way. The two agree: whatever type comes out, once links are followed it begins with that
constructor (`typeOf_head`). So the instance that a value picks is the one of its type.

For a function that holds arguments the type is the variable that its application was given, and
what the variable stands for is known only by its values: the declared type is an arrow for each
parameter, each argument held takes one of them off (`applyTo_leaves`), and as one is missing there
is an arrow left (`Ty.exists_fn_of_chain_eq`). A foreign object describes its type as it likes, so
nothing is said of one; inside of other values there may be any number of them.
-/

namespace Overload

/-- A shorter chain leaves an arrow of a longer one. -/
theorem Ty.exists_fn_of_chain_eq {ts : List Ty} (us : List Ty) {t u : Ty}
    (hlt : us.length < ts.length) (h : Ty.chain ts t = .chain us u) : ∃ a b, u = .fn a b := by
  induction us generalizing ts with
  | nil =>
      obtain ⟨a, as, rfl⟩ := List.exists_cons_of_length_pos hlt
      exact ⟨a, .chain as t, h.symm⟩
  | cons b bs ih =>
      obtain ⟨a, as, rfl⟩ := List.exists_cons_of_length_pos (Nat.zero_lt_of_lt hlt)
      simp only [Ty.chain_cons, Ty.fn, Ty.con.injEq, List.cons.injEq, true_and, and_true] at h
      exact ih (Nat.lt_of_succ_lt_succ hlt) h.2

/-- Whatever instance of the signature is taken, fewer arguments than parameters leave an arrow. -/
theorem Signature.exists_fn_of_instance {s : Store} {sig : Signature} {ψ : Subst} (us : List Ty)
    {u : Ty} (hlt : us.length < sig.arity) (h : (s.resolve sig.toTy).subst ψ = .chain us u) :
    ∃ a b, u = .fn a b := by
  rw [Signature.toTy, Store.resolve_chain, Ty.subst_chain] at h
  refine Ty.exists_fn_of_chain_eq us ?_ h
  rwa [List.length_map, List.length_map]

section functions

variable {σ : Session} {p : SupplyId}

theorem unknownFunction_fn {arity : Nat} (hpos : 0 < arity) :
    Ends (liftM (Ty.unknownFunction p arity)) σ (fun t σ' => ∃ a b, σ'.store.resolve t = .fn a b)
      fun _ _ => True := by
  have hlen := (length_mapM_freshTy p (List.replicate arity ()) σ.store).trans
    List.length_replicate
  refine Ends.lift (Ty.exists_fn_of_chain_eq [] ?_ (Store.resolve_chain ..).symm)
  rw [List.length_map]
  exact Nat.lt_of_lt_of_eq hpos hlen.symm

theorem copy_fn (hs : σ.store.WellFormed) {sig : Signature} (hpos : 0 < sig.arity) :
    Ends (liftM (sig.toTy.copy [] p)) σ (fun t σ' => ∃ a b, σ'.store.resolve t = .fn a b)
      fun _ _ => True := by
  have hcopied := Store.copied_copyWith hs sig.toTy p []
  refine Ends.lift ?_
  rw [Store.resolve_eq_subst]
  exact Signature.exists_fn_of_instance [] hpos
    (hcopied.value (Renaming.carries_valuesIn _ _)).symm

theorem length_typesOf (vs : List Value) :
    Ends (Value.typesOf p vs) σ (fun ts _ => ts.length = vs.length) fun _ _ => True := by
  induction vs generalizing σ with
  | nil =>
      rw [Value.typesOf]
      exact Ends.pure rfl
  | cons v vs ih =>
      rw [Value.typesOf]
      refine Ends.bind Ends.trivial fun t σ₁ _ => Ends.bind ih fun ts σ₂ hts => ?_
      exact Ends.pure (congrArg (· + 1) hts)

/-- In whatever values the variables take, the application takes one arrow off the declared type for
each argument. -/
theorem applyTo_spends {fixed : List Var} (hs : σ.store.WellFormed) {sig : Signature}
    (name : String) {args : List Value} (hshared : σ.store.Admits fixed (Value.sharedAll args)) :
    Ends (sig.applyTo p name args) σ (fun r σ' => ∀ θ, σ'.store.SolvedBy θ →
      ∃ (ψ : Subst) (us : List Ty), us.length = args.length
        ∧ (σ.store.resolve sig.toTy).subst ψ = .chain us (r.2.subst θ)) fun _ _ => True := by
  rw [Signature.applyTo]
  refine Ends.lift_bind ?_
  obtain ⟨hcopied, hready⟩ := Store.copied_openCopy hs sig p
  refine Ends.bind ((length_typesOf args).and
    (typesOf_keeps p args ((Store.Confined.refl hs fixed).alike hcopied.alike) hshared)) ?_
  rintro ts σ₂ ⟨hlen, ⟨h₂, hext₂⟩, hown⟩
  refine Ends.bind ((applyTo_leaves h₂.wellFormed (hready.mono hext₂.size_le)
    fun t ht => (hown t ht).covers).mono (fun _ _ h => h) fun _ _ _ => trivial) ?_
  intro ret σ₃ hret
  refine Ends.pure fun θ hθ => ?_
  obtain ⟨us, hus, heq⟩ := hret θ hθ
  refine ⟨(sig.openCopy p σ.store).1.copies.valuesIn θ, us, hus.length_eq.symm.trans hlen, ?_⟩
  rw [← hcopied.value (Renaming.carries_valuesIn _ θ), heq]

theorem applyTo_fn {fixed : List Var} (hs : σ.store.WellFormed) {sig : Signature} (name : String)
    {args : List Value} (hshared : σ.store.Admits fixed (Value.sharedAll args))
    (hlt : args.length < sig.arity) :
    Ends (sig.applyTo p name args) σ (fun r σ' => ∃ a b, σ'.store.resolve r.2 = .fn a b)
      fun _ _ => True := by
  refine Ends.mono ((applyTo_spends hs name hshared).and
    (Signature.applyTo_keeps (.refl hs fixed) hshared)) ?_ fun _ _ h => h
  rintro r σ' ⟨hspends, ⟨h', -⟩, -⟩
  -- what the type stands for is one of the values that it can take
  obtain ⟨ψ, us, hlen, heq⟩ := hspends _ (Store.solvedBy_resolve h'.wellFormed.acyclic)
  rw [← Store.resolve_eq_subst] at heq
  exact Signature.exists_fn_of_instance us (hlen.symm ▸ hlt) heq

/-- The type of a function that misses an argument. -/
theorem typeOf_fn (hs : σ.store.WellFormed) {v : Value}
    (hscope : ∀ w ∈ v.shared, w.index < σ.store.size) {n : Nat} (hv : v.arity? = some n)
    (hmissing : v.held.length < n) :
    Ends (v.typeOf p) σ (fun t σ' => ∃ a b, σ'.store.resolve t = .fn a b) fun _ _ => True := by
  cases v with
  | builtin name arity code args =>
      obtain rfl := Option.some.inj hv
      rw [Value.typeOf]
      exact unknownFunction_fn (Nat.sub_pos_of_lt hmissing)
  | method ref args =>
      obtain rfl := Option.some.inj hv
      rw [Value.typeOf]
      exact unknownFunction_fn (Nat.sub_pos_of_lt hmissing)
  | typed name sig code args =>
      obtain rfl := Option.some.inj hv
      cases args with
      | nil =>
          rw [Value.typeOf]
          exact copy_fn hs hmissing
      | cons arg args =>
          rw [Value.shared] at hscope
          rw [typeOf_typed_cons]
          refine Ends.bind (applyTo_fn hs name (fun w hw => ⟨hw, hscope w hw⟩) hmissing)
            fun r σ' hr => ?_
          exact Ends.pure hr
  | _ => cases hv

/-- The type of data is written with the constructor. -/
theorem typeOf_data {v : Value} (hnative : ∀ object, v ≠ .foreign object)
    (hv : v.isCallable = false) :
    Ends (v.typeOf p) σ (fun t _ => ∃ args, t = .con v.con args) fun _ _ => True := by
  cases v with
  | unit | bool _ | int _ | float _ | text _ =>
      rw [Value.typeOf]
      exact Ends.pure ⟨[], rfl⟩
  | list items =>
      cases items with
      | nil =>
          rw [Value.typeOf]
          exact Ends.lift_bind (Ends.pure ⟨_, rfl⟩)
      | cons item items =>
          rw [Value.typeOf]
          exact Ends.bind Ends.trivial fun elem _ _ => Ends.bind Ends.trivial fun _ _ _ =>
            Ends.pure ⟨[elem], rfl⟩
  | tuple items =>
      rw [Value.typeOf]
      exact Ends.bind Ends.trivial fun ts _ _ => Ends.pure ⟨ts, rfl⟩
  | data type variant fields =>
      rw [Value.typeOf]
      exact Ends.lift_bind (Ends.bind Ends.trivial fun _ _ _ => Ends.pure ⟨_, rfl⟩)
  | builtin _ _ _ _ | typed _ _ _ _ | method _ _ => cases hv
  | foreign object => exact absurd rfl (hnative object)

end functions

/-- The type of a value begins with the constructor that the value is dispatched on, and that of a
function which misses an argument is an arrow from one type to another. -/
theorem typeOf_head {σ σ' : Session} (hs : σ.store.WellFormed) {p : SupplyId} {v : Value}
    (hscope : ∀ w ∈ v.shared, w.index < σ.store.size) (hnative : ∀ object, v ≠ .foreign object)
    (hmissing : ∀ n, v.arity? = some n → v.held.length < n) {t : Ty}
    (h : v.typeOf p σ = .ok t σ') :
    ∃ args, σ'.store.resolve t = .con v.con args ∧ (v.isCallable = true → args.length = 2) := by
  cases hn : v.arity? with
  | some n =>
      obtain ⟨a, b, ht⟩ := (typeOf_fn hs hscope hn (hmissing n hn)).of_ok h
      have hcon : v.con = .arrow := by
        cases v with
        | builtin _ _ _ _ | typed _ _ _ _ | method _ _ => rfl
        | _ => cases hn
      exact ⟨[a, b], by rw [ht, hcon]; rfl, fun _ => rfl⟩
  | none =>
      have hv : v.isCallable = false := by
        cases v with
        | builtin _ _ _ _ | typed _ _ _ _ | method _ _ => cases hn
        | _ => rfl
      obtain ⟨args, rfl⟩ := (typeOf_data hnative hv).of_ok h
      exact ⟨_, Store.resolve_con .., fun hv' => absurd (hv.symm.trans hv') Bool.false_ne_true⟩

/-- Under `#0 := List #1`, a function of type `#0 -> #2 -> #1` that holds a list of integers waits
for one more argument. -/
theorem typeOf_head_partial :
    let sig : Signature := { params := [.var ⟨0⟩, .var ⟨2⟩], ret := .var ⟨1⟩ }
    let v := Value.typed "first" sig (.host 0) [.list [.int 1]]
    Store.sample.WellFormed ∧ v.shared = [] ∧ (∀ object, v ≠ .foreign object)
      ∧ (∀ n, v.arity? = some n → v.held.length < n)
      ∧ ∃ t σ', v.typeOf 0 { store := Store.sample } = .ok t σ'
        ∧ ∃ args, σ'.store.resolve t = .con v.con args
          ∧ (v.isCallable = true → args.length = 2) := by
  intro sig v
  have hshared : v.shared = [] := by simp [v, Value.shared, Value.sharedAll]
  have hscope : ∀ w ∈ v.shared, w.index < Store.sample.size := by simp [hshared]
  have hnative : ∀ object, v ≠ .foreign object := by simp [v]
  have hmissing : ∀ n, v.arity? = some n → v.held.length < n := by
    intro n hn
    obtain rfl := Option.some.inj hn
    decide
  have hsome : (EStateM.run' (v.typeOf 0) { store := Store.sample }).isSome = true := by
    decide +kernel
  refine ⟨Store.sample_wellFormed, hshared, hnative, hmissing, ?_⟩
  cases ht : v.typeOf 0 { store := Store.sample } with
  | error err σ' =>
      delta EStateM.run' EStateM.run at hsome
      simp only [ht] at hsome
      cases hsome
  | ok t σ' => exact ⟨t, σ', rfl, typeOf_head Store.sample_wellFormed hscope hnative hmissing ht⟩

end Overload
