import Overload.Engine.Call

/-!
# The steps of a complete call

A call that completes the arguments of a typed function has three steps: what is checked before the
code runs (`Engine.accept`), the run of the code, and what is checked afterwards (`Engine.finish`).
Only the run depends on the host, so a call that the first step turns away is one and the same for
all hosts and all code (`Engine.Refuses`), and every other call runs the code once
(`Engine.Invokes`). That the other two steps run nothing of the host is read off the log, which they
leave as it is (`Run.Silent`).
-/

namespace Overload

/-- The switches in force before an operation come back into force. -/
def Run.restore (outer : Option Switches) :
    EStateM.Result Fault Machine α → EStateM.Result Fault Machine α
  | .ok a m => .ok a (m.setActive outer)
  | .error f m => .error f (m.setActive outer)

theorem Engine.traced_eq (e : Engine) (act : Run α) (m : Machine) :
    e.traced act m
      = Run.restore m.session.trace.active (act (m.setActive (some e.settings.trace))) := by
  rw [Engine.traced]
  cases act (m.setActive (some e.settings.trace)) with
  | ok a m' => rfl
  | error f m' => rfl

theorem Run.infer_eq (x : Infer α) (m : Machine) :
    (liftM x : Run α) m = match x m.session with
      | .ok a session => .ok a { m with session }
      | .error e session => .error (.type e) { m with session } := rfl

/-! ## Steps that run nothing -/

/-- The log that a run ends with. -/
def Run.logged : EStateM.Result Fault Machine α → Array Invocation
  | .ok _ m => m.log
  | .error _ m => m.log

/-- No host function is run, whatever the outcome. -/
def Run.Silent (x : Run α) : Prop := ∀ m, Run.logged (x m) = m.log

namespace Run.Silent

theorem pure (a : α) : Run.Silent (pure a) := fun _ => rfl

theorem bind {x : Run α} {f : α → Run β} (hx : Run.Silent x) (hf : ∀ a, Run.Silent (f a)) :
    Run.Silent (x >>= f) := by
  intro m
  have hm := hx m
  have hbind : (x >>= f) m = EStateM.bind x f m := rfl
  rw [hbind, EStateM.bind]
  cases h : x m with
  | ok a m' =>
      rw [h] at hm
      exact (hf a m').trans hm
  | error f m' => rwa [h] at hm

theorem infer (x : Infer α) : Run.Silent (liftM x) := by
  intro m
  rw [Run.infer_eq]
  cases x m.session with
  | ok a σ => rfl
  | error e σ => rfl

theorem ofClassError (x : Except ClassError α) : Run.Silent (liftM x) := by
  cases x with
  | ok a => exact fun _ => rfl
  | error e => exact fun _ => rfl

theorem discard {x : Run α} (hx : Run.Silent x) : Run.Silent (discard x) := by
  rw [Functor.discard, LawfulFunctor.map_const, Function.comp, map_eq_pure_bind]
  exact hx.bind fun _ => .pure ()

theorem forM {f : β → Run Unit} (hf : ∀ x, Run.Silent (f x)) (xs : List β) :
    Run.Silent (xs.forM f) := by
  induction xs with
  | nil => exact .pure ()
  | cons x xs ih => exact (hf x).bind fun _ => ih

theorem report (c : Concern) (e : Event) : Run.Silent (Run.report c e) := by
  intro m
  change (if m.enabled c then { m with session := m.session.emit e } else m).log = m.log
  split <;> rfl

theorem meets (r : Registry) (cls : ClassId) (v : Var) : Run.Silent (r.meets cls v) := by
  refine (infer (liftM (Ty.var v).prune)).bind fun t => ?_
  cases t with
  | var w => exact .pure false
  | con c args => exact (ofClassError (r.lookup cls c)).discard.bind fun _ => .pure true

theorem openConstraints (r : Registry) (copies : Renaming) (cs : List Constraint) :
    Run.Silent (r.openConstraints copies cs) := by
  rw [Registry.openConstraints]
  induction cs with
  | nil => exact .pure []
  | cons c cs ih =>
      rw [List.filterMapM_cons, bind_assoc]
      refine (meets r c.cls _).bind fun met => ?_
      cases met with
      | true => exact ih
      | false => exact ih.bind fun _ => .pure _

theorem accept (e : Engine) (name : String) (sig : Signature) (args : List Value) :
    Run.Silent (e.accept name sig args) := by
  refine (infer (sig.applyTo e.supply name args)).bind fun r => ?_
  dsimp only
  split
  · exact (openConstraints e.registry r.1.copies sig.constraints).bind fun _ => .pure _
  · exact .pure _

theorem conclude (e : Engine) (name : String) (ret : Ty) (pending : List (ClassId × Var))
    (v : Value) : Run.Silent (e.conclude name ret pending v) := by
  have hinspect : Run.Silent (e.inspect ret pending v) := by
    rw [Engine.inspect]
    split
    · refine (infer (v.typeOf e.supply)).bind fun t => (infer (unify t ret)).bind fun _ => ?_
      exact .forM (fun q => (meets e.registry q.1 q.2).discard) pending
    · exact .pure ()
  have hannounce : Run.Silent (Engine.announceResult name ret) := by
    refine bind (x := get) (fun _ => rfl) fun m => ?_
    split
    · exact (infer (liftM ret.display)).bind fun _ => .report _ _
    · exact .pure ()
  exact hinspect.bind fun _ => hannounce.bind fun _ => .pure _

end Run.Silent

/-! ## The three steps -/

/-- What a call comes to once its code has run. -/
def Engine.finish (e : Engine) (name : String) (ret : Ty) (pending : List (ClassId × Var))
    (outer : Option Switches) :
    EStateM.Result Fault Machine Value → EStateM.Result Fault Machine CallOutcome
  | .ok result m => Run.restore outer (e.conclude name ret pending result m)
  | .error f m => .error f (m.setActive outer)

theorem logged_restore (outer : Option Switches) (r : EStateM.Result Fault Machine α) :
    Run.logged (Run.restore outer r) = Run.logged r := by
  cases r with
  | ok a m => rfl
  | error f m => rfl

theorem logged_finish (e : Engine) (name : String) (ret : Ty) (pending : List (ClassId × Var))
    (outer : Option Switches) (r : EStateM.Result Fault Machine Value) :
    Run.logged (e.finish name ret pending outer r) = Run.logged r := by
  cases r with
  | error f m => rfl
  | ok v m => exact (logged_restore ..).trans (Run.Silent.conclude e name ret pending v m)

section complete

variable {e : Engine} {name : String} {sig : Signature} {bound args : List Value} {m m₁ : Machine}

theorem callTyped_eq (hlen : bound.length + args.length = sig.arity) (h : Host) (apply : Apply)
    (code : Code) :
    h.callTyped apply e name sig code bound args = e.traced (do
      let (ret, pending) ← e.accept name sig (bound ++ args)
      let result ← h.runCode apply e name code (bound ++ args)
      e.conclude name ret pending result) := by
  simp [Host.callTyped, hlen]

theorem callTyped_of_accept (hlen : bound.length + args.length = sig.arity) {ret : Ty}
    {pending : List (ClassId × Var)}
    (haccept : e.accept name sig (bound ++ args) (m.setActive (some e.settings.trace))
      = .ok (ret, pending) m₁) (h : Host) (apply : Apply) (code : Code) :
    h.callTyped apply e name sig code bound args m
      = e.finish name ret pending m.session.trace.active
          (h.runCode apply e name code (bound ++ args) m₁) := by
  rw [callTyped_eq hlen, Engine.traced_eq]
  simp only [bind, EStateM.bind, haccept]
  cases h.runCode apply e name code (bound ++ args) m₁ with
  | ok result m₂ => rfl
  | error f m₂ => rfl

theorem callTyped_of_refusal (hlen : bound.length + args.length = sig.arity) {f : Fault}
    (haccept : e.accept name sig (bound ++ args) (m.setActive (some e.settings.trace))
      = .error f m₁) (h : Host) (apply : Apply) (code : Code) :
    h.callTyped apply e name sig code bound args m
      = .error f (m₁.setActive m.session.trace.active) := by
  rw [callTyped_eq hlen, Engine.traced_eq]
  simp only [bind, EStateM.bind, haccept]
  rfl

/-- The call ends with one fault, which is in `F`, for all hosts and all code. Nothing is run. -/
def Engine.Refuses (e : Engine) (m : Machine) (name : String) (sig : Signature)
    (bound args : List Value) (F : Fault → Prop) : Prop :=
  ∃ f m', F f ∧ m'.log = m.log
    ∧ ∀ (h : Host) (apply : Apply) (code : Code),
        h.callTyped apply e name sig code bound args m = .error f m'

theorem refuses_of_accept {F : Fault → Prop} (hlen : bound.length + args.length = sig.arity)
    {f : Fault}
    (haccept : e.accept name sig (bound ++ args) (m.setActive (some e.settings.trace))
      = .error f m₁) (hf : F f) : e.Refuses m name sig bound args F := by
  have hlog := Run.Silent.accept e name sig (bound ++ args) (m.setActive (some e.settings.trace))
  rw [haccept] at hlog
  exact ⟨f, m₁.setActive m.session.trace.active, hf, hlog, callTyped_of_refusal hlen haccept⟩

/-- The call runs the code from `m₁`, once and on all arguments in order. What is left to do after
that runs nothing and keeps a fault of the code. -/
def Engine.Invokes (e : Engine) (m : Machine) (name : String) (sig : Signature)
    (bound args : List Value) (m₁ : Machine) : Prop :=
  m₁.log = m.log
    ∧ ∃ finish : EStateM.Result Fault Machine Value → EStateM.Result Fault Machine CallOutcome,
        (∀ r, Run.logged (finish r) = Run.logged r)
          ∧ (∀ f m', ∃ m'', finish (.error f m') = .error f m'')
          ∧ ∀ (h : Host) (apply : Apply) (code : Code),
              h.callTyped apply e name sig code bound args m
                = finish (h.runCode apply e name code (bound ++ args) m₁)

theorem invokes_of_accept (hlen : bound.length + args.length = sig.arity) {ret : Ty}
    {pending : List (ClassId × Var)}
    (haccept : e.accept name sig (bound ++ args) (m.setActive (some e.settings.trace))
      = .ok (ret, pending) m₁) : e.Invokes m name sig bound args m₁ := by
  have hlog := Run.Silent.accept e name sig (bound ++ args) (m.setActive (some e.settings.trace))
  rw [haccept] at hlog
  exact ⟨hlog, _, logged_finish e name ret pending m.session.trace.active, fun f m' => ⟨_, rfl⟩,
    callTyped_of_accept hlen haccept⟩

/-- A call that is refused invokes nothing: there would be an entry in the log. -/
theorem Engine.Refuses.not_invokes {F : Fault → Prop} (h : e.Refuses m name sig bound args F) :
    ¬e.Invokes m name sig bound args m₁ := by
  rintro ⟨hlog₁, finish, hlogged, -, hcall⟩
  obtain ⟨f, m', -, hlog, hrefused⟩ := h
  let apply : Apply := fun _ _ _ => throw .tooDeep
  have hrun : ({} : Host).runCode apply e name (.host 0) (bound ++ args) m₁
      = .error (.message "no such function") { m₁ with log := m₁.log.push (.call name) } := rfl
  have heq := congrArg Run.logged
    ((hrefused {} apply (.host 0)).symm.trans (hcall {} apply (.host 0)))
  rw [hlogged, hrun] at heq
  have hsize : m'.log.size = (m₁.log.push (.call name)).size := congrArg Array.size heq
  rw [hlog, hlog₁, Array.size_push] at hsize
  omega

end complete

section accept

variable {e : Engine} {name : String} {sig : Signature} {args : List Value} {m : Machine}
  {σ : Session}

theorem accept_of_error {err : TypeError}
    (h : sig.applyTo e.supply name args m.session = .error err σ) :
    e.accept name sig args m = .error (.type err) { m with session := σ } := by
  simp only [Engine.accept, bind, EStateM.bind, liftM, monadLift, MonadLift.monadLift, h]

theorem accept_of_ok {o : Opened} {ret : Ty}
    (h : sig.applyTo e.supply name args m.session = .ok (o, ret) σ)
    (hc : sig.constraints = [] ∨ e.settings.checkConstraints = false) :
    e.accept name sig args m = .ok (ret, []) { m with session := σ } := by
  simp only [Engine.accept, bind, EStateM.bind, liftM, monadLift, MonadLift.monadLift, h]
  split
  · next hcheck =>
      rw [hc.resolve_right (by simp [hcheck])]
      rfl
  · rfl

end accept

section conclude

variable {e : Engine} {ret : Ty} {pending : List (ClassId × Var)} {v : Value} {m m₁ : Machine}
  {σ : Session}

/-- What is inferred for the result of a call. -/
def Value.returnAs (p : SupplyId) (v : Value) (ret : Ty) : Infer Unit := do
  unify (← v.typeOf p) ret

theorem inspect_of_ok (hcheck : e.settings.checkResult = true)
    (hv : v.returnAs e.supply ret m.session = .ok () σ) :
    e.inspect ret pending v m
      = (pending.forM fun (cls, v) => discard (e.registry.meets cls v))
          { m with session := σ } := by
  rw [Engine.inspect, if_pos hcheck]
  simp only [Value.returnAs, bind, EStateM.bind] at hv ⊢
  rw [Run.infer_eq]
  cases ht : v.typeOf e.supply m.session with
  | error err σ₁ =>
      rw [ht] at hv
      cases hv
  | ok t σ₁ =>
      rw [ht] at hv
      dsimp only at hv ⊢
      rw [Run.infer_eq, hv]

theorem inspect_of_error (hcheck : e.settings.checkResult = true) {err : TypeError}
    (hv : v.returnAs e.supply ret m.session = .error err σ) :
    e.inspect ret pending v m = .error (.type err) { m with session := σ } := by
  rw [Engine.inspect, if_pos hcheck]
  simp only [Value.returnAs, bind, EStateM.bind] at hv ⊢
  rw [Run.infer_eq]
  cases ht : v.typeOf e.supply m.session with
  | error err' σ₁ =>
      rw [ht] at hv
      cases hv
      rfl
  | ok t σ₁ =>
      rw [ht] at hv
      dsimp only at hv ⊢
      rw [Run.infer_eq, hv]

/-- Reporting the result cannot fail. -/
theorem announceResult_ok (name : String) (ret : Ty) (m : Machine) :
    ∃ m', Engine.announceResult name ret m = .ok () m' := by
  have hget : (get : Run Machine) m = .ok m m := rfl
  simp only [Engine.announceResult, bind, EStateM.bind, hget]
  split
  · exact ⟨_, rfl⟩
  · exact ⟨_, rfl⟩

theorem conclude_of_ok (name : String) (h : e.inspect ret pending v m = .ok () m₁) :
    ∃ m', e.conclude name ret pending v m = .ok (.applied v) m' := by
  obtain ⟨m', hm'⟩ := announceResult_ok name ret m₁
  refine ⟨m', ?_⟩
  simp only [Engine.conclude, bind, EStateM.bind, h, hm']
  rfl

theorem conclude_of_error (name : String) {f : Fault}
    (h : e.inspect ret pending v m = .error f m₁) :
    e.conclude name ret pending v m = .error f m₁ := by
  simp only [Engine.conclude, bind, EStateM.bind, h]

end conclude

end Overload
