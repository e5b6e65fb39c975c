import Overload.Proofs.Installation
import Overload.Proofs.MethodCalls
import Overload.Proofs.RunEquivalence

/-!
# The laws of lists

The instances of `Functor`, `Applicative` and `Monad` for lists are loops of calls, reached through
dispatch. What a method comes to is stated once (`Host.applyWithin_methodOf`): up to the event of
the dispatch it is the loop, with two calls less of room. The rest is about loops. That to apply a
list of functions is to bind it holds of all functions, with any effects and faults, since both are
the same loop of calls (`same_ap_bind`). The other laws are about functions without effects, where a
loop gives what the functions stand for (`settles_bind`).
-/

namespace Overload

/-! ## Code -/

namespace Host

variable {h : Host} {apply : Apply} {e : Engine}

theorem perform_request (r : Request) :
    h.perform apply e (Action.request r) = e.answer apply r := by
  funext m
  show (Run.observe (e.answer apply r) >>= fun o => h.perform apply e (Action.ofExcept o)) m = _
  cases hm : e.answer apply r m with
  | ok a m' =>
      have hobserve : Run.observe (e.answer apply r) m = .ok (.ok a) m' := by
        simp only [Run.observe, hm]
      rw [bind_of_ok hobserve]
      rfl
  | error f m' =>
      have hobserve : Run.observe (e.answer apply r) m = .ok (.error f) m' := by
        simp only [Run.observe, hm]
      rw [bind_of_ok hobserve]
      rfl

theorem perform_bind (act : Action α) (f : α → Action β) :
    h.perform apply e (act >>= f) = h.perform apply e act >>= fun a => h.perform apply e (f a) := by
  induction act with
  | done a => rfl
  | fail fault => rfl
  | ask engine r next ih =>
      show h.perform apply e (.ask engine r fun o => (next o).bind f) = _
      rw [perform, perform, bind_assoc]
      exact congrArg _ (funext ih)

/-- A host function of one argument is run and logged. -/
theorem applyWithin_host (n : Nat) (name : String) (i : Nat) (v : Value) :
    h.applyWithin (n + 1) e (.builtin name 1 (.host i) []) [v] = e.traced (do
      Run.logCall name
      h.perform (h.applyWithin n) e (h.function i [v])) := rfl

/-- An operation that gets all its arguments is run. -/
theorem applyWithin_operation (n : Nat) {op : Operation} {args : List Value}
    (hlen : args.length = op.arity) :
    h.applyWithin (n + 1) e op.value args = e.traced (op.run (h.applyWithin n) e args) := by
  simp [applyWithin, applyWith, Operation.value, hlen, runCode]

end Host

/-! ## Operations on lists -/

namespace Operation

variable (apply : Apply) (e : Engine)

theorem run_fmap (f : Value) (vs : List Value) : fmap.run apply e [f, .list vs]
    = do return .list (← vs.mapM fun v => apply e f [v]) := rfl

theorem run_ap (fs xs : List Value) : ap.run apply e [.list fs, .list xs]
    = do return .list (← fs.mapM fun f => xs.mapM fun x => apply e f [x]).flatten := rfl

theorem run_bind (vs : List Value) (f : Value) : bind.run apply e [.list vs, f] = do
    let rows ← vs.mapM fun v => do
      let produced ← apply e f [v]
      (items "bind continuation" produced : Except Fault (List Value))
    return .list rows.flatten := rfl

end Operation

/-! ## The instances for lists -/

namespace Standard

abbrev fmapMethod (std : Standard) : Value := methodOf std.functor .fmap 1

abbrev apMethod (std : Standard) : Value := methodOf std.applicative .ap 0

abbrev bindMethod (std : Standard) : Value := methodOf std.monad .bind 0

end Standard

/-- The standard classes have been installed in the registry of the engine. -/
def Engine.Equipped (e : Engine) (std : Standard) : Prop :=
  ∃ b b' later, Standard.install b = .ok std b'
    ∧ e.registry = (RegistryOp.runAll b' later).registry

/-- With enough room for nested calls the value acts as a total function without effects. -/
def Host.Acts (h : Host) (e : Engine) (f : Value) (φ : Value → Value) : Prop :=
  ∀ v, Run.Settles (fun n => h.applyWithin n e f [v]) (φ v)

section lists

variable {h : Host} {e : Engine} {std : Standard}

theorem Engine.Equipped.instances (he : e.Equipped std) :
    e.registry.instance? std.functor .list = some (Standard.record [.fmap])
      ∧ e.registry.instance? std.applicative .list = some (Standard.record [.pure, .ap])
      ∧ e.registry.instance? std.monad .list = some (Standard.record [.bind]) := by
  obtain ⟨b, b', later, hinstall, hregistry⟩ := he
  obtain ⟨rfl, hgains⟩ := Standard.gains_of_install rfl hinstall
  have hfound : ∀ row ∈ Standard.rows,
      e.registry.instance? ⟨b.registry.entries.length + row.place⟩ row.ty
        = some (Standard.record row.ops) := by
    intro row hrow
    rw [hregistry]
    refine RegistryOp.instance?_runAll later ((hgains.instance?_iff _ _ _).mpr (.inr ?_))
    exact List.mem_map_of_mem hrow
  exact ⟨hfound ⟨4, [.fmap], .list⟩ (by decide), hfound ⟨5, [.pure, .ap], .list⟩ (by decide),
    hfound ⟨6, [.bind], .list⟩ (by decide)⟩

/-- A method that is dispatched to the instance for lists comes to the operation of its name, up to
the event of the dispatch. -/
theorem Host.applyWithin_methodOf {cls : ClassId} {ops : List Operation} {op : Operation}
    (hrecord : e.registry.instance? cls .list = some (Standard.record ops))
    (himp : (Standard.record ops).get? op.name = some op.value) {args : List Value}
    (hlen : args.length = op.arity) {i : ArgIndex} {vs : List Value}
    (htarget : args[i.toNat]? = some (.list vs)) {n : Nat} {body : Run Value}
    (hbody : op.run (h.applyWithin n) e args = body) (hsteady : e.Steady body) :
    Run.Same .forget (h.applyWithin (n + 2) e (Standard.methodOf cls op i) args) body := by
  subst hbody
  refine .of_event (op.run_built (h.applyWithin_built n) e args) fun m => ?_
  have hres : MethodRef.Resolves e.registry
      { cls, name := op.name, arity := op.arity, dispatchOn := i } args (.ok op.value) :=
    .found hlen htarget hrecord himp
  obtain ⟨m', hm', hrun⟩ : ∃ m', m'.forget = m.forget
      ∧ h.applyWithin (n + 2) e (Standard.methodOf cls op i) args m
        = e.traced (h.applyWithin (n + 1) e op.value args) m' := applyWith_of_resolves_ok hres m
  refine ⟨m', hm', hrun.trans ?_⟩
  rw [applyWithin_operation n hlen, e.traced_traced, hsteady]

variable (he : e.Equipped std)
include he

theorem same_fmap (n : Nat) (f : Value) (vs : List Value) :
    Run.Same .forget (h.applyWithin (n + 2) e std.fmapMethod [f, .list vs])
      (do return .list (← vs.mapM fun v => h.applyWithin n e f [v])) :=
  Host.applyWithin_methodOf he.instances.1 rfl rfl rfl (Operation.run_fmap _ e f vs)
    (.bind (.mapM (fun _ => Host.traced_applyWithin n f) vs) fun _ => .pure _)

theorem same_ap (n : Nat) (fs xs : List Value) :
    Run.Same .forget
      (h.applyWithin (n + 2) e std.apMethod [.list fs, .list xs])
      (do return .list (← fs.mapM fun f => xs.mapM fun x => h.applyWithin n e f [x]).flatten) :=
  Host.applyWithin_methodOf he.instances.2.1 rfl rfl rfl (Operation.run_ap _ e fs xs)
    (.bind (.mapM (fun f => .mapM (fun _ => Host.traced_applyWithin n f) xs) fs) fun _ => .pure _)

theorem same_bind (n : Nat) (vs : List Value) (f : Value) :
    Run.Same .forget
      (h.applyWithin (n + 2) e std.bindMethod [.list vs, f])
      (do
        let rows ← vs.mapM fun v => do
          let produced ← h.applyWithin n e f [v]
          (Operation.items "bind continuation" produced : Except Fault (List Value))
        return .list rows.flatten) :=
  Host.applyWithin_methodOf he.instances.2.2 rfl rfl rfl (Operation.run_bind _ e vs f)
    (.bind (.mapM (fun _ => .bind (Host.traced_applyWithin n f) fun _ => .ofFault _) vs)
      fun _ => .pure _)

theorem same_pure (n : Nat) (v : Value) :
    Run.Same .forget
      (e.callInstance (h.applyWithin (n + 1)) std.applicative .list Operation.pure.name [v])
      (pure (.list [v])) := by
  have hpure : h.applyWithin (n + 1) e Operation.pure.value [v] = pure (.list [v]) :=
    Host.applyWithin_operation n rfl
  rw [Engine.callInstance_of_record he.instances.2.1 rfl, hpure]
  refine .of_event (.pure _) fun m => ?_
  rw [Engine.traced_eq]
  refine ⟨_, ?_, rfl⟩
  show Machine.forget (Machine.setActive (if _ then _ else _) _) = _
  split <;> rfl

/-- The continuation that maps a function over a list. -/
theorem same_fmap_continuation {xs : List Value} {i : Nat} {f : Value}
    (hi : h.function i [f]
      = Action.request (.apply std.fmapMethod [f, .list xs]))
    (name : String) (n : Nat) :
    Run.Same .forget (h.applyWithin (n + 3) e (.builtin name 1 (.host i) []) [f]) (do
      Run.logCall name
      return .list (← xs.mapM fun x => h.applyWithin n e f [x])) := by
  have hcall : h.applyWithin (n + 3) e (.builtin name 1 (.host i) []) [f] = (do
      Run.logCall name
      h.applyWithin (n + 2) e std.fmapMethod [f, .list xs]) := by
    rw [Host.applyWithin_host, hi, Host.perform_request]
    exact Engine.Steady.bind (.logCall name) fun _ => Host.traced_applyWithin (n + 2) _
  rw [hcall]
  exact .bind ((Run.Built.logCall name).same .events) fun _ => same_fmap he n f xs

theorem same_bind_fmap {xs : List Value} {i : Nat}
    (hi : ∀ f, h.function i [f]
      = Action.request (.apply std.fmapMethod [f, .list xs]))
    (name : String) (n : Nat) (fs : List Value) :
    Run.Same .forget
      (h.applyWithin (n + 5) e std.bindMethod
        [.list fs, .builtin name 1 (.host i) []])
      (do
        let rows ← fs.mapM fun f => do
          Run.logCall name
          xs.mapM fun x => h.applyWithin n e f [x]
        return .list rows.flatten) := by
  refine (same_bind he (n + 3) fs _).trans (.bind (.mapM fun f _ => ?_) fun rows => .pure _)
  have hproduced := Run.Same.bind (same_fmap_continuation he (hi f) name n) fun produced =>
    (Run.Built.ofFault (Operation.items "bind continuation" produced)).same .events
  have hitems : ∀ ws, (liftM (Operation.items "bind continuation" (.list ws)) : Run (List Value))
      = pure ws := fun _ => rfl
  simp only [bind_assoc, pure_bind, hitems, bind_pure] at hproduced
  exact hproduced

/-- Both ways run the same calls, provided that these do not need the room by which one way has
more of it. -/
theorem same_ap_bind {fs xs : List Value} {i : Nat}
    (hi : ∀ f, h.function i [f]
      = Action.request (.apply std.fmapMethod [f, .list xs]))
    (name : String) {n k : Nat} (hroom : ∀ f ∈ fs, ∀ x ∈ xs,
      Run.Same .bare (h.applyWithin k e f [x]) (h.applyWithin n e f [x])) :
    Run.Same .bare
      (h.applyWithin (k + 2) e std.apMethod [.list fs, .list xs])
      (h.applyWithin (n + 5) e std.bindMethod
        [.list fs, .builtin name 1 (.host i) []]) := by
  have hrow : ∀ k f, Run.Built (xs.mapM fun x => h.applyWithin k e f [x]) := fun k f =>
    .mapM (fun x => h.applyWithin_built k e f [x]) xs
  have hdirect := (same_ap (h := h) he k fs xs).records (.bind (.mapM (hrow k) fs) fun _ => .pure _)
  have hbound := (same_bind_fmap he hi name n fs).records
    (.bind (.mapM (fun f => .bind (.logCall name) fun _ => hrow n f) fs) fun _ => .pure _)
  refine hdirect.trans (.trans (.bind (.mapM fun f hf => ?_) fun rows => .pure _) hbound.symm)
  exact (Run.Same.mapM (hroom f hf)).trans ((hrow n f).same_logged name)

/-! ## Functions without effects -/

omit he in
theorem settles_host {i : Nat} {v a : Value}
    (hact : Run.Settles (fun n => h.perform (h.applyWithin n) e (h.function i [v])) a)
    (name : String) :
    Run.Settles (fun n => h.applyWithin n e (.builtin name 1 (.host i) []) [v]) a := by
  have hlog : Run.Settles (fun _ => Run.logCall name) () := fun m => ⟨0, fun _ _ => ⟨_, rfl, rfl⟩⟩
  have hcode : Run.Settles (fun n => do
      Run.logCall name
      h.perform (h.applyWithin n) e (h.function i [v])) a :=
    .bind hlog hact fun n => h.perform_built (h.applyWithin_built n) e _
  refine (hcode.traced e).of_same 1 fun n => ?_
  exact (h.applyWithin_built (n + 1) e _ [v]).same .records

omit he in
theorem settles_request {r : Request} {a : r.Answer}
    (hr : Run.Settles (fun n => e.answer (h.applyWithin n) r) a) :
    Run.Settles (fun n => h.perform (h.applyWithin n) e (Action.request r)) a := by
  simpa only [Host.perform_request] using hr

theorem settles_pure (v : Value) :
    Run.Settles (fun n => e.callInstance (h.applyWithin n) std.applicative .list
      Operation.pure.name [v]) (.list [v]) :=
  (Run.Settles.pure _).of_same 1 fun n => (same_pure he n v).records (.pure _)

theorem settles_fmap {f : Value} {χ : Value → Value} (hf : h.Acts e f χ) (vs : List Value) :
    Run.Settles (fun n => h.applyWithin n e std.fmapMethod [f, .list vs])
      (.list (vs.map χ)) := by
  have hcall := fun n v => h.applyWithin_built n e f [v]
  have hall : Run.Settles (fun n => do
      return Value.list (← vs.mapM fun v => h.applyWithin n e f [v])) (.list (vs.map χ)) :=
    .bind (.mapM hf hcall vs) (.pure _) fun _ => .pure _
  refine hall.of_same 2 fun n => (same_fmap he n f vs).records ?_
  exact .bind (.mapM (hcall n) vs) fun _ => .pure _

theorem settles_bind {f : Value} {φ : Value → List Value} (hf : h.Acts e f fun v => .list (φ v))
    (vs : List Value) :
    Run.Settles (fun n => h.applyWithin n e std.bindMethod [.list vs, f])
      (.list (vs.flatMap φ)) := by
  let row (n : Nat) (v : Value) : Run (List Value) := do
    let produced ← h.applyWithin n e f [v]
    (Operation.items "bind continuation" produced : Except Fault (List Value))
  have hbuilt : ∀ n v, Run.Built (row n v) := fun n v =>
    .bind (h.applyWithin_built n e f [v]) fun _ => .ofFault _
  have hrow : ∀ v, Run.Settles (fun n => row n v) (φ v) := fun v =>
    (hf v).bind (.pure (φ v)) fun _ => .pure _
  have hall : Run.Settles (fun n => do return Value.list (← vs.mapM (row n)).flatten)
      (.list (vs.flatMap φ)) := .bind (.mapM hrow hbuilt vs) (.pure _) fun _ => .pure _
  refine hall.of_same 2 fun n => (same_bind he n vs f).records ?_
  exact .bind (.mapM (hbuilt n) vs) fun _ => .pure _

/-- To return what is given. -/
theorem acts_pure {i : Nat} (hi : ∀ v, h.function i [v]
      = Action.request (.callInstance std.applicative .list Operation.pure.name [v]))
    (name : String) : h.Acts e (.builtin name 1 (.host i) []) fun v => .list [v] := by
  intro v
  refine settles_host ?_ name
  rw [hi]
  exact settles_request (r := .callInstance ..) (settles_pure he v)

/-- To go on from what the first function gives with the second. -/
theorem acts_bind {f g : Value} {φ ψ : Value → List Value} (hf : h.Acts e f fun v => .list (φ v))
    (hg : h.Acts e g fun v => .list (ψ v)) {i : Nat}
    (hi : ∀ v, h.function i [v] = do
      let ws ← Action.request (.apply f [v])
      Action.request (.apply std.bindMethod [ws, g]))
    (name : String) :
    h.Acts e (.builtin name 1 (.host i) []) fun v => .list ((φ v).flatMap ψ) := by
  intro v
  have hnext := settles_request (r := .apply ..) (settles_bind he hg (φ v))
  refine settles_host ?_ name
  rw [hi]
  simp only [Host.perform_bind]
  exact .bind (settles_request (r := .apply ..) (hf v)) hnext fun n =>
    h.perform_built (h.applyWithin_built n) e _

/-- To return what a function gives. -/
theorem acts_pure_comp {f : Value} {χ : Value → Value} (hf : h.Acts e f χ) {i : Nat}
    (hi : ∀ v, h.function i [v] = do
      let w ← Action.request (.apply f [v])
      Action.request (.callInstance std.applicative .list Operation.pure.name [w]))
    (name : String) : h.Acts e (.builtin name 1 (.host i) []) fun v => .list [χ v] := by
  intro v
  have hnext := settles_request (r := .callInstance ..) (settles_pure (h := h) he (χ v))
  refine settles_host ?_ name
  rw [hi]
  simp only [Host.perform_bind]
  exact .bind (settles_request (r := .apply ..) (hf v)) hnext fun n =>
    h.perform_built (h.applyWithin_built n) e _

end lists

/-! ## From outside -/

/-- How an operation of the engine is reached: from code that runs in the middle of one, or as an
operation that a host starts. -/
inductive Engine.Enters (e : Engine) : (Run Value → Run Value) → Prop
  | inner : e.Enters id
  | outer : e.Enters e.occupied

namespace Engine.Enters

variable {e : Engine} {enter : Run Value → Run Value}

theorem built (henter : e.Enters enter) {x : Run Value} (hx : Run.Built x) :
    Run.Built (enter x) := by
  cases henter with
  | inner => exact hx
  | outer => exact .occupied hx e

theorem same (henter : e.Enters enter) {p : Machine → Machine} (hp : Machine.Strips p)
    {x y : Run Value} (h : Run.Same p x y) : Run.Same p (enter x) (enter y) := by
  cases henter with
  | inner => exact h
  | outer => exact h.occupied hp e

theorem settles (henter : e.Enters enter) {x : Nat → Run Value} {v : Value}
    (hx : Run.Settles x v) : Run.Settles (fun n => enter (x n)) v := by
  cases henter with
  | inner => exact hx
  | outer => exact hx.occupied e

end Engine.Enters

/-! ## The laws -/

/-- A call that is reached in the given way, with room for `n` nested ones. -/
def Host.reach (h : Host) (e : Engine) (enter : Run Value → Run Value) (n : Nat) (func : Value)
    (args : List Value) : Run Value :=
  enter (h.applyWithin n e func args)

namespace Standard

variable (std : Standard) (h : Host) (e : Engine) (enter : Run Value → Run Value)

/-- To apply a list of functions to a list of values is to call them one after another on each of
the values, up to the first fault, whatever they do. To bind the list of functions to a continuation
that maps the function it is given over the values is the same, up to what the continuation itself
leaves in the log. It takes three more nested calls: with the same room on both ways the outcome is
the same if the elements do not come to need the last three. -/
def ApIsBind : Prop :=
  ∀ (fs xs : List Value) (name : String) (i : Nat),
    (∀ f, h.function i [f] = Action.request (.apply std.fmapMethod [f, .list xs])) →
    ∀ (n : Nat) (m : Machine),
      let row (f : Value) : Run (List Value) := xs.mapM fun x => h.applyWithin n e f [x]
      let direct := h.reach e enter (n + 2) std.apMethod [.list fs, .list xs] m
      let bound :=
        h.reach e enter (n + 5) std.bindMethod [.list fs, .builtin name 1 (.host i) []] m
      withState .forget direct
          = withState .forget (enter (do return .list (← fs.mapM row).flatten) m)
        ∧ withState .forget bound = withState .forget (enter (do
            let rows ← fs.mapM fun f => do
              Run.logCall name
              row f
            return .list rows.flatten) m)
        ∧ withState .bare direct = withState .bare bound
        ∧ ((∀ f ∈ fs, ∀ x ∈ xs,
              Run.Same .bare (h.applyWithin (n + 3) e f [x]) (h.applyWithin n e f [x])) →
            withState .bare (h.reach e enter (n + 5) std.apMethod [.list fs, .list xs] m)
              = withState .bare bound)

/-- To bind what is returned is to call the function. -/
def PureBind : Prop :=
  ∀ (v f : Value) (φ : Value → List Value), (h.Acts e f fun w => .list (φ w)) →
    Run.Settles (fun n => do
        let returned ← enter (e.callInstance (h.applyWithin n) std.applicative .list
          Operation.pure.name [v])
        h.reach e enter n std.bindMethod [returned, f]) (.list (φ v))
      ∧ Run.Settles (fun n => h.reach e enter n f [v]) (.list (φ v))

/-- To bind to a function that returns what it is given changes nothing. -/
def BindPure : Prop :=
  ∀ (vs : List Value) (name : String) (i : Nat),
    (∀ v, h.function i [v]
      = Action.request (.callInstance std.applicative .list Operation.pure.name [v])) →
    Run.Settles (fun n => h.reach e enter n std.bindMethod
      [.list vs, .builtin name 1 (.host i) []]) (.list vs)

/-- To bind twice is to bind to a function that binds. -/
def BindAssoc : Prop :=
  ∀ (vs : List Value) (f g : Value) (φ ψ : Value → List Value) (name : String) (i : Nat),
    (h.Acts e f fun w => .list (φ w)) → (h.Acts e g fun w => .list (ψ w)) →
    (∀ v, h.function i [v] = do
      let ws ← Action.request (.apply f [v])
      Action.request (.apply std.bindMethod [ws, g])) →
    Run.Settles (fun n => do
        let bound ← h.reach e enter n std.bindMethod [.list vs, f]
        h.reach e enter n std.bindMethod [bound, g]) (.list (vs.flatMap fun v => (φ v).flatMap ψ))
      ∧ Run.Settles (fun n => h.reach e enter n std.bindMethod
          [.list vs, .builtin name 1 (.host i) []]) (.list (vs.flatMap fun v => (φ v).flatMap ψ))

/-- To map a function is to bind to one that returns what it gives. -/
def MapIsBind : Prop :=
  ∀ (vs : List Value) (f : Value) (χ : Value → Value) (name : String) (i : Nat),
    h.Acts e f χ →
    (∀ v, h.function i [v] = do
      let w ← Action.request (.apply f [v])
      Action.request (.callInstance std.applicative .list Operation.pure.name [w])) →
    Run.Settles (fun n => h.reach e enter n std.fmapMethod [f, .list vs]) (.list (vs.map χ))
      ∧ Run.Settles (fun n => h.reach e enter n std.bindMethod
          [.list vs, .builtin name 1 (.host i) []]) (.list (vs.map χ))

end Standard

section laws

variable {h : Host} {e : Engine} {std : Standard} (he : e.Equipped std)
  {enter : Run Value → Run Value} (henter : e.Enters enter)
include he henter

theorem apIsBind : std.ApIsBind h e enter := by
  intro fs xs name i hi n m row direct bound
  have hself : ∀ f ∈ fs, ∀ x ∈ xs,
      Run.Same .bare (h.applyWithin n e f [x]) (h.applyWithin n e f [x]) := fun f _ x _ =>
    (h.applyWithin_built n e f [x]).same .records
  refine ⟨henter.same .events (same_ap he n fs xs) m m rfl,
    henter.same .events (same_bind_fmap he hi name n fs) m m rfl,
    henter.same .records (same_ap_bind he hi name hself) m m rfl, fun hroom => ?_⟩
  exact henter.same .records (same_ap_bind he hi name hroom) m m rfl

theorem settles_reach_bind {f : Value} {φ : Value → List Value} (vs : List Value)
    (hf : h.Acts e f fun w => .list (φ w)) :
    Run.Settles (fun n => h.reach e enter n std.bindMethod [.list vs, f])
      (.list (vs.flatMap φ)) :=
  henter.settles (settles_bind he hf vs)

omit he in
theorem reach_built (n : Nat) (func : Value) (args : List Value) :
    Run.Built (h.reach e enter n func args) :=
  henter.built (h.applyWithin_built n e func args)

theorem pureBind : std.PureBind h e enter := by
  intro v f φ hf
  refine ⟨?_, henter.settles (hf v)⟩
  have hone : Run.Settles (fun n => h.reach e enter n std.bindMethod [.list [v], f])
      (.list (φ v)) := by
    simpa using settles_reach_bind he henter [v] hf
  exact .bind (henter.settles (settles_pure he v)) hone fun n => reach_built henter n _ _

theorem bindPure : std.BindPure h e enter := by
  intro vs name i hi
  simpa using settles_reach_bind he henter vs (acts_pure he hi name)

theorem bindAssoc : std.BindAssoc h e enter := by
  intro vs f g φ ψ name i hf hg hi
  refine ⟨?_, settles_reach_bind he henter vs (acts_bind he hf hg hi name)⟩
  rw [← List.flatMap_assoc]
  exact .bind (settles_reach_bind he henter vs hf) (settles_reach_bind he henter _ hg)
    fun n => reach_built henter n _ _

theorem mapIsBind : std.MapIsBind h e enter := by
  intro vs f χ name i hf hi
  refine ⟨henter.settles (settles_fmap he hf vs), ?_⟩
  rw [List.map_eq_flatMap]
  exact settles_reach_bind he henter vs (acts_pure_comp he hf hi name)

end laws

/-- The instances for lists obey the laws, whether they are reached from inside or from outside.
The first one is about functions that may do anything. With functions that have no effects, binding
is substitution: what is returned can be bound or left, two binds can be nested either way, and to
map is to bind and return. -/
theorem list_instances_lawful {h : Host} {e : Engine} {std : Standard} (he : e.Equipped std)
    {enter : Run Value → Run Value} (henter : e.Enters enter) :
    std.ApIsBind h e enter ∧ std.PureBind h e enter ∧ std.BindPure h e enter
      ∧ std.BindAssoc h e enter ∧ std.MapIsBind h e enter :=
  ⟨apIsBind he henter, pureBind he henter, bindPure he henter, bindAssoc he henter,
    mapIsBind he henter⟩

/-- A function that doubles what it is given, in an engine with nothing but the standard classes.
What is no function among the elements is a fault, the same on both ways. -/
theorem list_instances_lawful_twice :
    ∃ (e : Engine) (std : Standard), e.Equipped std ∧ e.Enters e.occupied
      ∧ let fmap := Standard.methodOf std.functor .fmap 1
        let ap := Standard.methodOf std.applicative .ap 0
        let bind := Standard.methodOf std.monad .bind 0
        let twice : Value := .builtin "twice" 1 (.host 0) []
        let each : Value := .builtin "each" 1 (.host 1) []
        let both : Value := .builtin "both" 1 (.host 2) []
        let h : Host := { functions := #[fun args => .done (.list (args ++ args)),
          fun args => Action.request (.apply fmap (args ++ [.list [.int 1, .int 2]])),
          fun args => do
            let ws ← Action.request (.apply twice args)
            Action.request (.apply bind [ws, twice])] }
        (h.Acts e twice fun v => .list [v, v])
          ∧ Run.Settles (fun n => do
              e.occupied (h.applyWithin n e bind
                [← e.occupied (h.applyWithin n e bind [.list [.unit], twice]), twice]))
              (.list [.unit, .unit, .unit, .unit])
          ∧ Run.Settles (fun n => e.occupied (h.applyWithin n e bind [.list [.unit], both]))
              (.list [.unit, .unit, .unit, .unit])
          ∧ withState .bare (e.occupied
              (h.applyWithin 9 e ap [.list [twice, .unit], .list [.int 1, .int 2]]) {})
            = withState .bare (e.occupied
              (h.applyWithin 12 e bind [.list [twice, .unit], each]) {}) := by
  obtain ⟨b', hinstall⟩ := Standard.install_of_free (b := {}) rfl Registry.coherent_empty rfl
    (by decide)
  let e : Engine := { name := "e", supply := 0, registry := b'.registry }
  have he : e.Equipped (.numbered 0) := ⟨{}, b', [], hinstall, rfl⟩
  refine ⟨e, .numbered 0, he, .outer, ?_⟩
  intro fmap ap bind twice each both h
  have htwice : h.Acts e twice fun v => .list [v, v] := by
    intro v
    refine settles_host ?_ "twice"
    exact Run.Settles.pure (Value.list [v, v])
  obtain ⟨hap, -, -, hassoc, -⟩ := list_instances_lawful (h := h) he .outer
  let double (v : Value) : List Value := [v, v]
  obtain ⟨hnested, hjoined⟩ :=
    hassoc [.unit] twice twice double double "both" 2 htwice htwice fun _ => rfl
  obtain ⟨-, -, hsame, -⟩ :=
    hap [twice, .unit] [.int 1, .int 2] "each" 1 (fun _ => rfl) 7 {}
  exact ⟨htwice, hnested, hjoined, hsame⟩

end Overload
