import Overload.Engine.Call
import Overload.Proofs.Steps

/-!
# What runs are made of

An operation of an engine is put together from inferences, reports and the runs of host functions,
within the two kinds of scopes that engines have (`Run.Built`). Of the machine it goes by no more
than the store and the names of the engines that are busy; in particular nothing looks at the
reports or, except to make one, at the trace switches. `Host.applyWithin_built` says so of the whole
interpreter, whatever the functions of the host do and however deep their calls are nested.
-/

namespace Overload

/-- What an event is about. -/
def Event.concern : Event → Concern
  | .unify .. => .unify
  | .registered .. => .registry
  | .partialCall .. | .applied .. => .calls
  | .dispatched .. => .dispatch

/-! ## Parts of a run -/

/-- The run is an operation of the engine, in which code makes its calls through `apply`. -/
inductive Engine.Performs (e : Engine) (apply : Apply) : {α : Type} → Run α → Prop
  | apply (h : Host) (func : Value) (args : List Value) :
      Performs e apply (h.applyWith apply e func args)
  | call (h : Host) (name : String) (sig : Signature) (code : Code) (bound args : List Value) :
      Performs e apply (h.callTyped apply e name sig code bound args)
  | callMethod (cls : ClassId) (name : String) (dispatchOn : ArgIndex) (args : List Value) :
      Performs e apply (e.callMethod apply cls name dispatchOn args)
  | callInstance (cls : ClassId) (ty : TypeCon) (name : String) (args : List Value) :
      Performs e apply (e.callInstance apply cls ty name args)
  | typeOf (v : Value) : Performs e apply (e.typeOf v)
  | analyze (x : Expr) (Γ : Env) : Performs e apply (e.analyze x Γ)

/-- The run is put together from these parts. It may go by the store and by the engines that are
busy, and sees nothing else of the machine. -/
inductive Run.Built : {α : Type} → Run α → Prop
  | pure {α : Type} (a : α) : Built (pure a)
  | throw {α : Type} (f : Fault) : Built (throw f : Run α)
  | infer {α : Type} {p : SupplyId} {x : Infer α} : Infer.Built p x → Built (liftM x)
  | report (ev : Event) : Built (Run.report ev.concern ev)
  | announceResult (name : String) (ret : Ty) : Built (Engine.announceResult name ret)
  | logCall (name : String) : Built (Run.logCall name)
  | bind {α β : Type} {x : Run α} {f : α → Run β} :
      Built x → (∀ a, Built (f a)) → Built (x >>= f)
  | observe {α : Type} {x : Run α} : Built x → Built (Run.observe x)
  /-- Only operations of an engine put its switches in force. -/
  | operation {α : Type} {x body : Run α} {e : Engine} {apply : Apply} :
      e.Performs apply x → x = e.traced body → Built body → Built x
  | occupied {α : Type} {x : Run α} : Built x → ∀ e : Engine, Built (e.occupied x)
  | running {α : Type} {f : List String → Run α} :
      (∀ names, Built (f names)) → Built (get >>= fun m => f m.running)

namespace Run.Built

variable {α β : Type}

theorem ofClassError (x : Except ClassError α) : Built (liftM x : Run α) := by
  cases x with
  | ok a => exact .pure a
  | error e => exact .throw (.cls e)

theorem ofFault (x : Except Fault α) : Built (liftM x : Run α) := by
  cases x with
  | ok a => exact .pure a
  | error f => exact .throw f

theorem store {x : StoreM α} (p : SupplyId) (hx : Stepwise p x) :
    Built (liftM (liftM x : Infer α) : Run α) := .infer (.store hx)

theorem discard {x : Run α} (hx : Built x) : Built (discard x) := by
  rw [Functor.discard, LawfulFunctor.map_const, Function.comp, map_eq_pure_bind]
  exact hx.bind fun _ => .pure ()

theorem forM {f : β → Run Unit} (hf : ∀ x, Built (f x)) (xs : List β) : Built (xs.forM f) := by
  induction xs with
  | nil => exact .pure ()
  | cons x xs ih => exact (hf x).bind fun _ => ih

theorem mapM {f : β → Run α} (hf : ∀ x, Built (f x)) (xs : List β) : Built (xs.mapM f) := by
  induction xs with
  | nil => exact .pure []
  | cons x xs ih =>
      rw [List.mapM_cons]
      exact (hf x).bind fun _ => ih.bind fun _ => .pure _

end Run.Built

/-! ## Checks -/

theorem Registry.meets_built (r : Registry) (cls : ClassId) (v : Var) :
    Run.Built (r.meets cls v) := by
  refine .bind (.store 0 (.prune (.var v))) fun t => ?_
  cases t with
  | var w => exact .pure false
  | con c args => exact .bind (.discard (.ofClassError (r.lookup cls c))) fun _ => .pure true

theorem Registry.openConstraints_built (r : Registry) (copies : Renaming) (cs : List Constraint) :
    Run.Built (r.openConstraints copies cs) := by
  rw [openConstraints]
  induction cs with
  | nil => exact .pure []
  | cons c cs ih =>
      rw [List.filterMapM_cons, bind_assoc]
      refine .bind (r.meets_built c.cls _) fun met => ?_
      cases met with
      | true => exact ih
      | false => exact ih.bind fun _ => .pure _

namespace Engine

theorem accept_built (e : Engine) (name : String) (sig : Signature) (args : List Value) :
    Run.Built (e.accept name sig args) := by
  refine .bind (.infer (.applyTo sig name args)) fun r => ?_
  dsimp only
  split
  · exact .bind (e.registry.openConstraints_built r.1.copies sig.constraints) fun _ => .pure _
  · exact .pure _

theorem inspect_built (e : Engine) (ret : Ty) (pending : List (ClassId × Var)) (v : Value) :
    Run.Built (e.inspect ret pending v) := by
  rw [inspect]
  split
  · refine .bind (.infer (.typeOf v)) fun t => ?_
    refine .bind (.infer (.unify (p := e.supply) t ret)) fun _ => ?_
    exact .forM (fun (cls, v) => .discard (e.registry.meets_built cls v)) pending
  · exact .pure ()

theorem conclude_built (e : Engine) (name : String) (ret : Ty) (pending : List (ClassId × Var))
    (v : Value) : Run.Built (e.conclude name ret pending v) :=
  .bind (e.inspect_built ret pending v) fun _ =>
    .bind (.announceResult name ret) fun _ => .pure _

end Engine

/-! ## Calls -/

/-- The calls that code makes are put together in the same way. -/
def Apply.Built (apply : Apply) : Prop := ∀ e func args, Run.Built (apply e func args)

section calls

variable {apply : Apply}

theorem Operation.run_built (happly : apply.Built) (e : Engine) (op : Operation)
    (args : List Value) : Run.Built (op.run apply e args) := by
  cases op <;> dsimp only [Operation.run]
  case display | eq => exact .bind (.ofFault _) fun _ => .pure _
  case compare | add | sub | mul | negate => exact .bind (.ofFault _) fun _ => .ofFault _
  case pure => exact .pure _
  case fmap =>
    refine .bind (.ofFault _) fun (func, _) => .bind (.ofFault _) fun vs => ?_
    exact .bind (.mapM (fun v => happly e func [v]) vs) fun _ => .pure _
  case ap =>
    refine .bind (.ofFault _) fun _ => .bind (.ofFault _) fun funcs =>
      .bind (.ofFault _) fun vs => ?_
    exact .bind (.mapM (fun func => .mapM (fun v => happly e func [v]) vs) funcs) fun _ => .pure _
  case bind =>
    refine .bind (.ofFault _) fun (_, func) => .bind (.ofFault _) fun vs => ?_
    exact .bind (.mapM (fun v => .bind (happly e func [v]) fun _ => .ofFault _) vs) fun _ => .pure _

namespace Engine

theorem typeOf_built (apply : Apply) (e : Engine) (v : Value) : Run.Built (e.typeOf v) :=
  .operation (.typeOf v : e.Performs apply _) rfl (.infer (.typeOf v))

theorem analyze_built (apply : Apply) (e : Engine) (x : Expr) (Γ : Env) :
    Run.Built (e.analyze x Γ) :=
  .operation (.analyze x Γ : e.Performs apply _) rfl (.infer (.analyze Γ [] x))

theorem callInstance_built (happly : apply.Built) (e : Engine) (cls : ClassId) (ty : TypeCon)
    (name : String) (args : List Value) :
    Run.Built (e.callInstance apply cls ty name args) := by
  refine .operation (.callInstance cls ty name args : e.Performs apply _) rfl ?_
  refine .bind (.ofClassError _) fun record => ?_
  split
  · exact .bind (.report (.dispatched _ _)) fun _ => happly e _ args
  · exact .bind (.ofClassError _) fun _ => .throw _

theorem callMethod_built (happly : apply.Built) (e : Engine) (cls : ClassId) (name : String)
    (dispatchOn : ArgIndex) (args : List Value) :
    Run.Built (e.callMethod apply cls name dispatchOn args) := by
  rw [callMethod]
  split
  · exact e.callInstance_built happly cls _ name args
  · exact .throw _

theorem answer_built (happly : apply.Built) (e : Engine) (r : Request) :
    Run.Built (e.answer apply r) := by
  cases r with
  | apply func args => exact happly e func args
  | callMethod cls name dispatchOn args => exact e.callMethod_built happly cls name dispatchOn args
  | callInstance cls ty name args => exact e.callInstance_built happly cls ty name args
  | typeOf v => exact e.typeOf_built apply v
  | bareTypeOf v => exact .infer (.typeOf v)
  | analyze x Γ => exact e.analyze_built apply x Γ
  | display t => exact .store e.supply (.display t)

end Engine

namespace Host

theorem inEngine_built {α : Type} (h : Host) (e : Engine) (name : Option String)
    {act : Engine → Run α} (hact : ∀ e', Run.Built (act e')) :
    Run.Built (h.inEngine e name act) := by
  unfold inEngine
  cases name with
  | none => exact hact e
  | some name =>
      dsimp only
      split
      · exact .throw _
      · refine .running (f := fun names => if names.contains name then _ else _) fun names => ?_
        split
        · exact .throw _
        · exact .occupied (hact _) _

theorem perform_built {α : Type} (happly : apply.Built) (h : Host) (e : Engine)
    (act : Action α) : Run.Built (h.perform apply e act) := by
  induction act with
  | done a => exact .pure a
  | fail f => exact .throw f
  | ask engine r next ih =>
      rw [perform]
      exact .bind (.observe (h.inEngine_built e engine fun e' => e'.answer_built happly r)) ih

theorem runCode_built (happly : apply.Built) (h : Host) (e : Engine) (name : String)
    (code : Code) (args : List Value) : Run.Built (h.runCode apply e name code args) := by
  cases code with
  | operation op => exact op.run_built happly e args
  | host index => exact .bind (.logCall name) fun _ => h.perform_built happly e _

theorem callTyped_built (happly : apply.Built) (h : Host) (e : Engine) (name : String)
    (sig : Signature) (code : Code) (bound args : List Value) :
    Run.Built (h.callTyped apply e name sig code bound args) := by
  refine .operation (.call h name sig code bound args : e.Performs apply _) rfl ?_
  dsimp only
  split
  · exact .throw _
  · split
    · exact .bind (.report (.partialCall _ _ _)) fun _ => .pure _
    · refine .bind (e.accept_built name sig _) fun (ret, pending) => ?_
      exact .bind (h.runCode_built happly e name code _) fun v =>
        e.conclude_built name ret pending v

theorem applyWith_built (happly : apply.Built) (h : Host) : Apply.Built (h.applyWith apply) := by
  intro e func args
  refine .operation (.apply h func args : e.Performs apply _) rfl ?_
  split
  · dsimp only
    split
    · exact .throw _
    · split
      · exact h.runCode_built happly e _ _ _
      · exact .pure _
  · exact .bind (h.callTyped_built happly e _ _ _ _ _) fun _ => .pure _
  · dsimp only
    split
    · exact .throw _
    · split
      · exact .pure _
      · exact e.callMethod_built happly _ _ _ _
  · exact .throw _

/-- However deep calls are nested. -/
theorem applyWithin_built (h : Host) (n : Nat) : Apply.Built (h.applyWithin n) := by
  induction n with
  | zero => exact fun e func args => .throw _
  | succ n ih => exact h.applyWith_built ih

end Host

end calls

end Overload
