import Overload.Proofs.ClassTables
import Overload.Proofs.HostRuns
import Overload.Proofs.Instances

/-!
# Class constraints are checked

A constraint names a declared variable. A call follows it into the copy that is made of the declared
type, looks up an instance as soon as the variable stands for a constructor, and looks again after
the result if it was open before. So no constraint is skipped (`constraint_checked`), with one
exception: the copy is recorded under the variables that are unbound in the declared type, and a
variable that was unified with another one before is not among them. Such a constraint is looked up
under the old variable, which the call never binds (`aliased_constraint_skipped`).

A look-up only reads the store, so all constraints are judged by one and the same store, whatever
their order.
-/

namespace Overload

/-- The constructor at the top of a term. -/
def Ty.head? : Ty → Option TypeCon
  | .var _ => none
  | .con c _ => some c

namespace Constraint

/-- The variable that is looked up: the copy of the declared one, where there is a copy. -/
def target (c : Constraint) (copies : Renaming) : Var := (copies.lookup c.var).getD c.var

/-- What the declared variable stands for, in the copy that the call makes. -/
def carried (c : Constraint) (s : Store) (copies : Renaming) : Ty :=
  (s.resolve (.var c.var)).subst (copies.toSubst [])

end Constraint

/-! ## Where a constraint is looked up -/

theorem Renaming.mem_of_lookup_meetAll {kept vs : List Var} {m : Renaming} {k : Nat} {v w : Var}
    (h : (meetAll kept (m, k) vs).1.lookup v = some w) : v ∈ vs ∨ m.lookup v = some w := by
  induction vs generalizing m k with
  | nil => exact .inr h
  | cons u vs ih =>
      rcases ih (m := (meet kept (m, k) u).1) (k := (meet kept (m, k) u).2) h with hmem | hm
      · exact .inl (List.mem_cons_of_mem u hmem)
      · rw [meet] at hm
        split at hm
        · exact .inr hm
        · rw [List.lookup_cons] at hm
          split at hm
          · next heq => exact .inl (eq_of_beq heq ▸ List.mem_cons_self ..)
          · exact .inr hm

/-- Only unbound variables of the declared type have copies. -/
theorem Store.unbound_of_copies {s : Store} (hs : s.WellFormed) {sig : Signature} {p : SupplyId}
    {v w : Var} (h : (sig.openCopy p s).1.copies.lookup v = some w) : s.link? v = none := by
  obtain ⟨-, hmeet, -⟩ := Store.copies_copyWith hs sig.toTy [] p [] s (.refl hs)
  have hlookup : (Renaming.meetAll [] ([], s.size) (s.resolve sig.toTy).vars).1.lookup v = some w :=
    hmeet ▸ h
  rcases Renaming.mem_of_lookup_meetAll hlookup with hmem | hnil
  · exact Store.unlinked_resolve hs.acyclic sig.toTy v hmem
  · cases hnil

/-- What is looked up has the constructor that the constraint is about, unless the declared variable
stands for another variable. -/
theorem Constraint.head_target {s s' : Store} (hs : s.WellFormed) (hext : s.Extends s')
    (sig : Signature) (p : SupplyId) {c : Constraint}
    (hself : ∀ w, s.resolve (.var c.var) = .var w → w = c.var) :
    (s'.resolve (.var (c.target (sig.openCopy p s).1.copies))).head?
      = (s'.resolve (c.carried s (sig.openCopy p s).1.copies)).head? := by
  cases hr : s.resolve (.var c.var) with
  | var w =>
      obtain rfl := hself w hr
      rw [carried, hr, Ty.subst_var, target, Renaming.toSubst, if_neg List.not_mem_nil]
      cases (sig.openCopy p s).1.copies.lookup c.var with
      | none => rfl
      | some w' => rfl
  | con K args =>
      have hnone : (sig.openCopy p s).1.copies.lookup c.var = none := by
        by_contra hsome
        obtain ⟨w, hw⟩ := Option.ne_none_iff_exists'.mp hsome
        rw [Store.resolve_of_unbound (Store.unbound_of_copies hs hw)] at hr
        cases hr
      rw [target, hnone, Option.getD_none, ← hext.resolve_resolve, carried, hr, Ty.subst_con,
        Store.resolve_con, Store.resolve_con]
      rfl

theorem Ends.trivial {x : Infer α} {σ : Session} : Ends x σ (fun _ _ => True) fun _ _ => True := by
  rw [Ends]
  split <;> exact True.intro

theorem Signature.applyTo_opened {sig : Signature} {p : SupplyId} {name : String}
    {args : List Value} {σ σ₁ : Session} {o : Opened} {ret : Ty}
    (h : sig.applyTo p name args σ = .ok (o, ret) σ₁) : o = (sig.openCopy p σ.store).1 := by
  have hends : Ends (sig.applyTo p name args) σ
      (fun r _ => r.1 = (sig.openCopy p σ.store).1) fun _ _ => True := by
    refine Ends.lift_bind (Ends.bind Ends.trivial fun ts σ₂ _ => ?_)
    exact Ends.bind Ends.trivial fun ret σ₃ _ => Ends.pure rfl
  exact hends.of_ok h

/-! ## Looking up -/

namespace Registry

variable {r : Registry} {cls : ClassId} {K : TypeCon}

theorem instance?_eq_none {err : ClassError} (h : r.lookup cls K = .error err) :
    r.instance? cls K = none := by
  by_contra hsome
  obtain ⟨record, hrecord⟩ := Option.ne_none_iff_exists'.mp hsome
  rw [lookup_eq_ok_iff.mpr hrecord] at h
  cases h

/-- A class of the registry without an instance is reported as such. -/
theorem lookup_eq_error {d : ClassDecl} {err : ClassError} (hd : r.decl cls = .ok d)
    (h : r.lookup cls K = .error err) : err = .missingInstance d.name K.name := by
  simp only [lookup, decl, entry] at hd h
  cases hentry : r.entries[cls.index]? with
  | none =>
      rw [hentry] at hd
      cases hd
  | some entry =>
      rw [hentry] at hd h
      simp only [bind, Except.bind] at hd h
      cases hlookup : entry.instances.lookup K with
      | none =>
          rw [hlookup] at h
          cases hd
          cases h
          rfl
      | some record =>
          rw [hlookup] at h
          cases h

/-- If the variable stands for a constructor in `s`, there is an instance for it. -/
def Upholds (r : Registry) (s : Store) (cls : ClassId) (v : Var) : Prop :=
  ∀ K, (s.resolve (.var v)).head? = some K → (r.instance? cls K).isSome

/-- The fault is that of a failed look-up for what the variable stands for in `s`. -/
def Lacks (r : Registry) (s : Store) (cls : ClassId) (v : Var) (f : Fault) : Prop :=
  ∃ K err, (s.resolve (.var v)).head? = some K ∧ r.lookup cls K = .error err ∧ f = .cls err

end Registry

section lookups

variable {s : Store} {m : Machine} {r : Registry}

theorem meets_ends (hs : s.WellFormed) (hm : s.Quiet m.store) (cls : ClassId) (v : Var) :
    Run.Ends (r.meets cls v) m
      (fun met m' => s.Quiet m'.store ∧ r.Upholds s cls v
        ∧ ((s.resolve (.var v)).head? = none → met = false))
      fun f _ => r.Lacks s cls v f := by
  rw [Registry.meets]
  refine (Run.Ends.reads (s.reads_prune hs (.var v)) hm).bind ?_
  rintro t m₁ ⟨hm₁, ht⟩
  rcases ht.cases with ⟨w, rfl, -, hv⟩ | ⟨K, args, rfl, hv⟩
  · refine ⟨hm₁, fun K hK => ?_, fun _ => rfl⟩
    rw [hv] at hK
    cases hK
  · have hhead : (s.resolve (.var v)).head? = some K := by rw [hv]; rfl
    dsimp only
    cases hlookup : r.lookup cls K with
    | error err => exact ⟨K, err, hhead, hlookup, rfl⟩
    | ok record =>
        refine ⟨hm₁, fun K' hK' => ?_, fun hnone => ?_⟩
        · obtain rfl := Option.some.inj (hhead.symm.trans hK')
          rw [Registry.lookup_eq_ok_iff.mp hlookup]
          rfl
        · rw [hhead] at hnone
          cases hnone

theorem openConstraints_ends (hs : s.WellFormed) (hm : s.Quiet m.store) (copies : Renaming)
    (cs : List Constraint) :
    Run.Ends (r.openConstraints copies cs) m
      (fun pending m' => s.Quiet m'.store
        ∧ (∀ q ∈ pending, ∃ c ∈ cs, q = (c.cls, c.target copies))
        ∧ ∀ c ∈ cs, r.Upholds s c.cls (c.target copies)
          ∧ ((s.resolve (.var (c.target copies))).head? = none →
              (c.cls, c.target copies) ∈ pending))
      fun f _ => ∃ c ∈ cs, r.Lacks s c.cls (c.target copies) f := by
  rw [Registry.openConstraints]
  induction cs generalizing m with
  | nil => exact ⟨hm, List.forall_mem_nil _, List.forall_mem_nil _⟩
  | cons c cs ih =>
      rw [List.filterMapM_cons, bind_assoc]
      refine (Run.Ends.mono (meets_ends hs hm c.cls (c.target copies)) (fun _ _ h => h)
        fun f _ hf => ⟨c, List.mem_cons_self .., hf⟩).bind ?_
      rintro met m₁ ⟨hm₁, hc, hopen⟩
      have hmore : ∀ f, (∃ c' ∈ cs, r.Lacks s c'.cls (c'.target copies) f) →
          ∃ c' ∈ c :: cs, r.Lacks s c'.cls (c'.target copies) f := by
        rintro f ⟨c', hmem, hf⟩
        exact ⟨c', List.mem_cons_of_mem c hmem, hf⟩
      have hrest := Run.Ends.mono (ih hm₁) (fun _ _ h => h) fun f _ => hmore f
      cases met with
      | true =>
          refine Run.Ends.mono hrest ?_ fun _ _ h => h
          rintro pending m₂ ⟨hm₂, hfrom, hall⟩
          refine ⟨hm₂, fun q hq => ?_, List.forall_mem_cons.mpr ⟨⟨hc, fun hnone => ?_⟩, hall⟩⟩
          · obtain ⟨c', hmem, hq⟩ := hfrom q hq
            exact ⟨c', List.mem_cons_of_mem c hmem, hq⟩
          · cases hopen hnone
      | false =>
          rw [pure_bind, if_neg Bool.false_ne_true]
          refine Run.Ends.bind hrest ?_
          rintro pending m₂ ⟨hm₂, hfrom, hall⟩
          refine ⟨hm₂, List.forall_mem_cons.mpr ⟨⟨c, List.mem_cons_self .., rfl⟩, fun q hq => ?_⟩,
            List.forall_mem_cons.mpr ⟨⟨hc, fun _ => List.mem_cons_self ..⟩, fun c' hmem => ?_⟩⟩
          · obtain ⟨c', hmem, hq⟩ := hfrom q hq
            exact ⟨c', List.mem_cons_of_mem c hmem, hq⟩
          · exact ⟨(hall c' hmem).1, fun hnone => List.mem_cons_of_mem _ ((hall c' hmem).2 hnone)⟩

theorem pending_ends (hs : s.WellFormed) (hm : s.Quiet m.store)
    (pending : List (ClassId × Var)) :
    Run.Ends (pending.forM fun (cls, v) => discard (r.meets cls v)) m
      (fun _ _ => ∀ q ∈ pending, r.Upholds s q.1 q.2)
      fun f _ => ∃ q ∈ pending, r.Lacks s q.1 q.2 f := by
  induction pending generalizing m with
  | nil => exact fun _ hq => nomatch hq
  | cons q pending ih =>
      have hfirst := Run.Ends.mono (meets_ends (r := r) hs hm q.1 q.2)
        (fun _ _ h => (⟨h.1, h.2.1⟩ : s.Quiet _ ∧ r.Upholds s q.1 q.2))
        fun f _ hf => (⟨q, List.mem_cons_self .., hf⟩ : ∃ q' ∈ q :: pending, r.Lacks s q'.1 q'.2 f)
      refine hfirst.discard.bind fun _ m₁ ⟨hm₁, hq⟩ => ?_
      refine Run.Ends.mono (ih hm₁) (fun _ _ h => List.forall_mem_cons.mpr ⟨hq, h⟩) ?_
      exact fun f _ ⟨q', hmem, hf⟩ => ⟨q', List.mem_cons_of_mem q hmem, hf⟩

end lookups

/-! ## Calls -/

/-- The fault reports a class without an instance for what one of the constraints stands for: by
name, if it is a class of the registry. -/
def Signature.Misses (sig : Signature) (r : Registry) (s : Store) (copies : Renaming) (f : Fault) :
    Prop :=
  ∃ c ∈ sig.constraints, ∃ K err, (s.resolve (.var (c.target copies))).head? = some K
    ∧ r.instance? c.cls K = none ∧ f = .cls err
    ∧ ∀ d, r.decl c.cls = .ok d → err = .missingInstance d.name K.name

theorem Value.admits_sharedAll {s : Store} {vs : List Value} (h : ∀ v ∈ vs, v.InScope s) :
    s.Admits (Value.sharedAll vs) (Value.sharedAll vs) := by
  intro w hw
  have hvars := Value.sharedAll_subset_varsAll vs hw
  rw [Value.varsAll_eq] at hvars
  obtain ⟨v, hv, hwv⟩ := List.mem_flatMap.mp hvars
  exact ⟨hw, h v hv w hwv⟩

section calls

variable {e : Engine} {m : Machine} {name : String} {sig : Signature} {bound args : List Value}

theorem misses_of_lacks {r : Registry} {s : Store} {copies : Renaming} {f : Fault} {c : Constraint}
    (hc : c ∈ sig.constraints) (h : r.Lacks s c.cls (c.target copies) f) :
    sig.Misses r s copies f := by
  obtain ⟨K, err, hhead, hlookup, rfl⟩ := h
  exact ⟨c, hc, K, err, hhead, Registry.instance?_eq_none hlookup, rfl,
    fun d hd => Registry.lookup_eq_error hd hlookup⟩

theorem accept_of_applyTo {o : Opened} {ret : Ty} {σ : Session}
    (hcheck : e.settings.checkConstraints = true)
    (h : sig.applyTo e.supply name args m.session = .ok (o, ret) σ) :
    e.accept name sig args m = (do
      let pending ← e.registry.openConstraints o.copies sig.constraints
      return (ret, pending)) { m with session := σ } := by
  simp only [Engine.accept, bind, EStateM.bind, liftM, monadLift, MonadLift.monadLift, h, hcheck]
  rfl

theorem accept_ends {o : Opened} {ret : Ty} {σ : Session}
    (hcheck : e.settings.checkConstraints = true) (hs : σ.store.WellFormed)
    (h : sig.applyTo e.supply name args m.session = .ok (o, ret) σ) :
    Run.Ends (e.accept name sig args) m
      (fun r m' => r.1 = ret ∧ σ.store.Quiet m'.store
        ∧ (∀ q ∈ r.2, ∃ c ∈ sig.constraints, q = (c.cls, c.target o.copies))
        ∧ ∀ c ∈ sig.constraints, e.registry.Upholds σ.store c.cls (c.target o.copies)
          ∧ ((σ.store.resolve (.var (c.target o.copies))).head? = none →
              (c.cls, c.target o.copies) ∈ r.2))
      fun f _ => ∃ c ∈ sig.constraints, e.registry.Lacks σ.store c.cls (c.target o.copies) f := by
  rw [Run.Ends, accept_of_applyTo hcheck h]
  exact Run.Ends.bind (openConstraints_ends hs (m := { m with session := σ }) (.refl hs) o.copies
    sig.constraints) fun pending m' h' => ⟨rfl, h'⟩

/-- Typing the result extends the store that it starts from. -/
theorem returnAs_extends {v : Value} {p : SupplyId} {ret : Ty} {σ σ' : Session}
    (hs : σ.store.WellFormed) (hv : v.InScope σ.store) (hret : σ.store.Covers ret)
    (h : v.returnAs p ret σ = .ok () σ') : σ.store.Extends σ'.store := by
  have hkeeps := typeOf_keeps p v (.refl hs v.shared) fun w hw =>
    ⟨hw, hv w (v.shared_subset_vars hw)⟩
  have hends : Ends (v.returnAs p ret) σ (fun _ σ' => σ.store.Extends σ'.store)
      fun _ _ => True := by
    refine Ends.bind (Ends.mono hkeeps (fun _ _ h => h) fun _ _ _ => trivial) ?_
    rintro t σ₁ ⟨⟨h₁, hext₁⟩, hown⟩
    exact Ends.mono (unify_spec h₁.wellFormed hown.covers (hret.mono hext₁.size_le))
      (fun _ _ h => hext₁.trans h.toExtends) fun _ _ _ => trivial
  exact hends.of_ok h

/-- A constraint that is pending and has no instance after the result ends the call. -/
theorem callTyped_of_pending {ret : Ty} {pending : List (ClassId × Var)} {m₁ m₂ : Machine}
    {h : Host} {apply : Apply} {code : Code} {v : Value} {σ₃ : Session}
    (hlen : bound.length + args.length = sig.arity)
    (haccept : e.accept name sig (bound ++ args) (m.setActive (some e.settings.trace))
      = .ok (ret, pending) m₁)
    (hrun : h.runCode apply e name code (bound ++ args) m₁ = .ok v m₂)
    (hresult : e.settings.checkResult = true)
    (hreturn : v.returnAs e.supply ret m₂.session = .ok () σ₃) (hs : σ₃.store.WellFormed)
    {q : ClassId × Var} (hq : q ∈ pending) (hnot : ¬e.registry.Upholds σ₃.store q.1 q.2) :
    ∃ q' ∈ pending, ∃ f m₃, e.registry.Lacks σ₃.store q'.1 q'.2 f
      ∧ h.callTyped apply e name sig code bound args m = .error f m₃ := by
  have hends := pending_ends (r := e.registry) (m := { m₂ with session := σ₃ }) hs (.refl hs)
    pending
  cases hforM : (pending.forM fun (cls, v) => discard (e.registry.meets cls v))
      { m₂ with session := σ₃ } with
  | ok _ m₃ => exact absurd (hends.of_ok hforM q hq) hnot
  | error f m₃ =>
      obtain ⟨q', hq', hlacks⟩ := hends.of_error hforM
      have hinspect := (inspect_of_ok hresult hreturn).trans hforM
      refine ⟨q', hq', f, m₃.setActive m.session.trace.active, hlacks, ?_⟩
      rw [callTyped_of_accept hlen haccept, hrun, Engine.finish, conclude_of_error name hinspect]
      rfl

/-- For a declared variable that does not stand for another one, no constraint is skipped: neither
one that the arguments decide, nor one that is decided by the result. -/
theorem constraint_checked (hs : m.store.WellFormed)
    (hargs : ∀ v ∈ bound ++ args, v.InScope m.store)
    (hlen : bound.length + args.length = sig.arity)
    (hcheck : e.settings.checkConstraints = true) {c : Constraint}
    (hc : c ∈ sig.constraints) (hself : ∀ w, m.store.resolve (.var c.var) = .var w → w = c.var)
    {o : Opened} {ret : Ty} {σ₁ : Session}
    (happly : sig.applyTo e.supply name (bound ++ args)
      (m.setActive (some e.settings.trace)).session = .ok (o, ret) σ₁)
    {K : TypeCon} (hK : e.registry.instance? c.cls K = none) :
    ((σ₁.store.resolve (c.carried m.store o.copies)).head? = some K →
        e.Refuses m name sig bound args (sig.Misses e.registry σ₁.store o.copies))
      ∧ ((σ₁.store.resolve (c.carried m.store o.copies)).head? = none →
          e.settings.checkResult = true →
          e.Refuses m name sig bound args (sig.Misses e.registry σ₁.store o.copies)
            ∨ ∃ m₁, e.Invokes m name sig bound args m₁
              ∧ ∀ (h : Host) (known : List Var) (n : Nat) (code : Code) (v : Value) (m₂ : Machine)
                  (σ₃ : Session), (∀ w ∈ known, w.index < m.store.size) → h.Knows known →
                e.registry.Knows known →
                h.runCode (h.applyWithin n) e name code (bound ++ args) m₁ = .ok v m₂ →
                v.returnAs e.supply ret m₂.session = .ok () σ₃ →
                (σ₃.store.resolve (c.carried m.store o.copies)).head? = some K →
                ∃ f m₃, sig.Misses e.registry σ₃.store o.copies f
                  ∧ h.callTyped (h.applyWithin n) e name sig code bound args m = .error f m₃) := by
  have hrefl : m.store.Confined (Value.sharedAll (bound ++ args))
      (m.setActive (some e.settings.trace)).session.store := .refl hs _
  obtain ⟨⟨-, hext₁⟩, hret⟩ := Ends.of_ok (Signature.applyTo_keeps hrefl
    (Value.admits_sharedAll hargs)) happly
  have ho : o = (sig.openCopy e.supply (m.setActive (some e.settings.trace)).store).1 :=
    Signature.applyTo_opened happly
  have htarget : ∀ {s' : Store}, m.store.Extends s' →
      (s'.resolve (.var (c.target o.copies))).head?
        = (s'.resolve (c.carried m.store o.copies)).head? := fun hext => by
    rw [ho]
    exact Constraint.head_target hs hext sig e.supply hself
  have hends := accept_ends hcheck hext₁.wellFormed happly
  cases haccept : e.accept name sig (bound ++ args) (m.setActive (some e.settings.trace)) with
  | error f m₁ =>
      obtain ⟨c', hc', hlacks⟩ := hends.of_error haccept
      have hrefuses := refuses_of_accept hlen haccept (misses_of_lacks hc' hlacks)
      exact ⟨fun _ => hrefuses, fun _ _ => .inl hrefuses⟩
  | ok r m₁ =>
      obtain ⟨ret', pending⟩ := r
      obtain ⟨rfl, hquiet, hfrom, hall⟩ := hends.of_ok haccept
      obtain ⟨hupholds, hpending⟩ := hall c hc
      have hnot : ∀ {s' : Store}, m.store.Extends s' →
          (s'.resolve (c.carried m.store o.copies)).head? = some K →
          ¬e.registry.Upholds s' c.cls (c.target o.copies) := by
        intro s' hext hhead hup
        have hsome := hup K ((htarget hext).trans hhead)
        rw [hK] at hsome
        cases hsome
      refine ⟨fun hhead => absurd hupholds (hnot hext₁ hhead), fun hnone hresult =>
        .inr ⟨m₁, invokes_of_accept hlen haccept, ?_⟩⟩
      intro h known n code v m₂ σ₃ hknown hhost hreg hrun hreturn hhead
      have hextm₁ := hext₁.trans hquiet.toAlike.extends
      obtain ⟨fixed, -, hconf, hv⟩ := runCode_confined hquiet.wellFormed hextm₁.size_le hknown
        hargs hhost hreg hrun
      have hcovers := hret.covers.mono (hquiet.toAlike.extends.trans hconf.toExtends).size_le
      have hext₃ := returnAs_extends hconf.wellFormed hv hcovers hreturn
      obtain ⟨q, hq, f, m₃, hlacks, hcall⟩ := callTyped_of_pending hlen haccept hrun hresult hreturn
        hext₃.wellFormed (hpending ((htarget hext₁).trans hnone))
        (hnot (hextm₁.trans (hconf.toExtends.trans hext₃)) hhead)
      obtain ⟨c', hc', rfl⟩ := hfrom q hq
      exact ⟨f, m₃, misses_of_lacks hc' hlacks, hcall⟩

end calls

/-- `Show` has been declared and has no instances. Under `#0 := List #1`, a constraint on `#0` is
one on lists, which the argument of `head` decides. The one on the result of `make` is open until
its code has given an integer. -/
theorem constraint_checked_sample :
    let head : Signature :=
      { params := [.var ⟨0⟩], ret := .var ⟨1⟩, constraints := [⟨⟨0⟩, ⟨0⟩⟩] }
    let make : Signature :=
      { params := [.nullary .unit], ret := .var ⟨2⟩, constraints := [⟨⟨0⟩, ⟨2⟩⟩] }
    let e : Engine :=
      { name := "main", supply := 0
        registry := (RegistryOp.runAll {} [.declare { name := "Show" }]).registry }
    let m : Machine := { session := { store := Store.sample } }
    let σ := (m.setActive (some e.settings.trace)).session
    let h : Host := { functions := #[fun _ => .done (.int 1)] }
    m.store.WellFormed ∧ (∀ K, e.registry.instance? ⟨0⟩ K = none)
      ∧ (∃ o ret σ₁, head.applyTo e.supply "head" [.list [.int 1]] σ = .ok (o, ret) σ₁
        ∧ (σ₁.store.resolve (Constraint.carried ⟨⟨0⟩, ⟨0⟩⟩ m.store o.copies)).head? = some .list
        ∧ e.Refuses m "head" head [] [.list [.int 1]]
            (head.Misses e.registry σ₁.store o.copies))
      ∧ ∃ o ret σ₁ m₁, make.applyTo e.supply "make" [.unit] σ = .ok (o, ret) σ₁
        ∧ (σ₁.store.resolve (Constraint.carried ⟨⟨0⟩, ⟨2⟩⟩ m.store o.copies)).head? = none
        ∧ e.Invokes m "make" make [] [.unit] m₁
        ∧ (∀ v m₂ σ₃, h.runCode h.nested e "make" (.host 0) [.unit] m₁ = .ok v m₂ →
            v.returnAs e.supply ret m₂.session = .ok () σ₃ →
            (σ₃.store.resolve (Constraint.carried ⟨⟨0⟩, ⟨2⟩⟩ m.store o.copies)).head? = some .int →
            ∃ f m₃, make.Misses e.registry σ₃.store o.copies f
              ∧ h.callTyped h.nested e "make" make (.host 0) [] [.unit] m = .error f m₃)
        ∧ ∃ m₃, h.callTyped h.nested e "make" make (.host 0) [] [.unit] m
            = .error (.cls (.missingInstance "Show" "Int")) m₃ ∧ m₃.log = #[.call "make"] := by
  intro head make e m σ h
  have hs : m.store.WellFormed := Store.sample_wellFormed
  have hnone : ∀ K, e.registry.instance? ⟨0⟩ K = none := fun _ => rfl
  refine ⟨hs, hnone, ?_, ?_⟩
  · have hargs : ∀ v ∈ [] ++ [Value.list [.int 1]], v.InScope m.store := by
      intro v hv w hw
      rw [List.mem_singleton.mp hv] at hw
      simp [Value.vars, Value.varsAll] at hw
    have hself : ∀ w, m.store.resolve (.var ⟨0⟩) = .var w → w = ⟨0⟩ := by
      intro w hw
      have hlist : Store.sample.resolve (.var ⟨0⟩) = .list (.var ⟨1⟩) := by decide
      cases hlist.symm.trans hw
    obtain ⟨r, σ₁, happly, hhead⟩ :
        Succeeds (head.applyTo e.supply "head" [.list [.int 1]] σ) fun r σ₁ =>
          (σ₁.store.resolve (Constraint.carried ⟨⟨0⟩, ⟨0⟩⟩ m.store r.1.copies)).head?
            = some .list := by decide +kernel
    exact ⟨r.1, r.2, σ₁, happly, hhead, (constraint_checked hs hargs rfl rfl
      (List.mem_singleton.mpr rfl) hself happly (hnone .list)).1 hhead⟩
  · have hargs : ∀ v ∈ [] ++ [Value.unit], v.InScope m.store := by
      intro v hv w hw
      rw [List.mem_singleton.mp hv] at hw
      simp [Value.vars] at hw
    have hself : ∀ w, m.store.resolve (.var ⟨2⟩) = .var w → w = ⟨2⟩ := by
      intro w hw
      have hopen : Store.sample.resolve (.var ⟨2⟩) = .var ⟨2⟩ := by decide
      cases hopen.symm.trans hw
      rfl
    have hhost : h.Knows [] := by
      refine ⟨fun index args => ?_, fun name e' he' => by cases he'⟩
      cases index with
      | zero => simp [h, Host.function, Action.Knows, Value.vars]
      | succ index => exact trivial
    have hregistry : e.registry.Knows [] := by
      rintro ⟨index⟩ ty record name imp hrecord
      cases index with
      | zero => cases Registry.lookup_eq_ok_iff.mp hrecord
      | succ index => cases Registry.lookup_eq_ok_iff.mp hrecord
    obtain ⟨r, σ₁, happly, hhead⟩ :
        Succeeds (make.applyTo e.supply "make" [.unit] σ) fun r σ₁ =>
          (σ₁.store.resolve (Constraint.carried ⟨⟨0⟩, ⟨2⟩⟩ m.store r.1.copies)).head? = none := by
      decide +kernel
    obtain ⟨f, m₃, hcall, rfl, hlog⟩ :
        Fails (h.callTyped h.nested e "make" make (.host 0) [] [.unit] m) fun f m₃ =>
          f = .cls (.missingInstance "Show" "Int") ∧ m₃.log = #[.call "make"] := by decide +kernel
    rcases (constraint_checked hs hargs rfl rfl (List.mem_singleton.mpr rfl) hself happly
      (hnone .int)).2 hhead rfl with hrefuses | ⟨m₁, hinvokes, hafter⟩
    · -- the code has been run
      obtain ⟨f', m', -, hlog', hrefused⟩ := hrefuses
      cases hcall.symm.trans (hrefused h h.nested (.host 0))
      cases hlog.symm.trans hlog'
    · refine ⟨r.1, r.2, σ₁, m₁, happly, hhead, hinvokes, fun v m₂ σ₃ hrun hreturn hint => ?_,
        m₃, hcall, hlog⟩
      exact hafter h [] Host.depthLimit (.host 0) v m₂ σ₃ (by simp) hhost hregistry hrun hreturn
        hint

theorem Value.eq_unit_of_equal {v : Value} (h : v.equal .unit = true) : v = .unit := by
  cases v with
  | unit => rfl
  | _ => cases h

/-- Under `#0 := #1`, the code of a function of type `#0 -> Unit` with a constraint on `#0` runs on
an integer although there is no instance for integers, and its result is returned. -/
theorem aliased_constraint_skipped :
    let c : Constraint := ⟨⟨0⟩, ⟨0⟩⟩
    let sig : Signature := { params := [.var ⟨0⟩], ret := .nullary .unit, constraints := [c] }
    let e : Engine :=
      { name := "main", supply := 0
        registry := (RegistryOp.runAll {} [.declare { name := "C" }, .close]).registry }
    let s : Store :=
      { cells := #[{ supply := 0, serial := 0, link := some (.var ⟨1⟩) },
          { supply := 0, serial := 1 }]
        supplies := #[{ allocated := 2 }] }
    let m : Machine := { session := { store := s } }
    let h : Host := { functions := #[fun _ => .done .unit] }
    e.settings.checkConstraints = true ∧ e.settings.checkResult = true
      ∧ e.registry.instance? c.cls .int = none
      ∧ (∃ o ret σ₁, sig.applyTo e.supply "f" [.int 1]
            (m.setActive (some e.settings.trace)).session = .ok (o, ret) σ₁
          ∧ (σ₁.store.resolve (c.carried m.store o.copies)).head? = some .int)
      ∧ ∃ m', h.callTyped h.nested e "f" sig (.host 0) [] [.int 1] m = .ok (.applied .unit) m'
          ∧ m'.log = #[.call "f"] := by
  intro c sig e s m h
  obtain ⟨r, σ₁, happly, hhead⟩ : Succeeds (sig.applyTo e.supply "f" [.int 1]
      (m.setActive (some e.settings.trace)).session) fun r σ₁ =>
        (σ₁.store.resolve (c.carried m.store r.1.copies)).head? = some .int := by decide +kernel
  obtain ⟨outcome, m', hcall, hunit, hlog⟩ :
      Succeeds (h.callTyped h.nested e "f" sig (.host 0) [] [.int 1] m) fun outcome m' =>
        outcome.casesOn (motive := fun _ => Bool) (fun _ => false) (·.equal .unit) = true
          ∧ m'.log = #[.call "f"] := by decide +kernel
  refine ⟨rfl, rfl, rfl, ⟨r.1, r.2, σ₁, happly, hhead⟩, m', ?_, hlog⟩
  cases outcome with
  | unsaturated func => cases hunit
  | applied v => rw [hcall, Value.eq_unit_of_equal hunit]

end Overload
