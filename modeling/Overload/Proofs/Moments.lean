import Overload.Proofs.CallSteps
import Overload.Proofs.Runs

/-!
# Trace switches follow the innermost engine

Operations of engines are nested in each other: an engine calls itself, and a host function that it
calls may turn to other engines. Which of them is the innermost in progress is not written down in
the machine, which only has the switches in force. `Run.Passes` follows a run along its operations
and says which moments it passes, that is, which points where something is reported if it is asked
for, and inside of which engine they lie. At each of them the switches in force turn out to be those
of that engine (`Run.Passes.follows`), since an operation, however it ends, leaves the switches as
it found them.
-/

namespace Overload

/-! ## Moments -/

/-- The rule for reports: the forced switches, else those of the engine of the innermost operation
in progress, else, outside any operation, the environment. -/
def Trace.asks (t : Trace) (inner : Option Engine) (c : Concern) : Bool :=
  match t.forced, inner with
  | some switches, _ => switches.covers c
  | none, some e => e.settings.trace.covers c
  | none, none => t.setting == some "1"

/-- A point of a run where an event may be reported. -/
structure Moment where
  concern : Concern
  /-- The engine of the innermost operation in progress. -/
  inner : Option Engine
  /-- The trace up to this moment. -/
  trace : Trace
  /-- What is reported, if anything. -/
  event : Option Event

/-- There is an event if and only if one is asked for, and it is about the right concern. -/
def Moment.Right (q : Moment) : Prop :=
  q.event.isSome = q.trace.asks q.inner q.concern ∧ ∀ ev ∈ q.event, ev.concern = q.concern

/-- The machine that a run ends with, whatever its outcome. -/
def Machine.after (m : Machine) (x : Run α) : Machine :=
  match x m with
  | .ok _ m' => m'
  | .error _ m' => m'

namespace Machine

variable {m m' : Machine} {α : Type} {x : Run α}

theorem after_of_ok {a : α} (h : x m = .ok a m') : m.after x = m' := by rw [after, h]

theorem after_bind_error {β : Type} {f : α → Run β} {fault : Fault} (h : x m = .error fault m') :
    m.after (x >>= f) = m.after x := by rw [after, bind_of_error h, after, h]

theorem after_bind {β : Type} {f : α → Run β} {a : α} (h : x m = .ok a m') :
    m.after (x >>= f) = m'.after (f a) := by rw [after, bind_of_ok h, after]

theorem after_observe : m.after (Run.observe x) = m.after x := by
  rw [after, after, Run.observe]
  cases x m with
  | ok a m' => rfl
  | error f m' => rfl

theorem after_traced (e : Engine) : m.after (e.traced x)
    = ((m.setActive (some e.settings.trace)).after x).setActive m.session.trace.active := by
  rw [after, after, Engine.traced]
  cases x (m.setActive (some e.settings.trace)) with
  | ok a m' => rfl
  | error f m' => rfl

theorem after_occupied (e : Engine) : m.after (e.occupied x)
    = { Machine.after { m with running := e.name :: m.running } x with running := m.running } := by
  rw [after, after, Engine.occupied]
  cases x { m with running := e.name :: m.running } with
  | ok a m' => rfl
  | error f m' => rfl

end Machine

namespace Run

/-- The parts of a run that report. -/
inductive Point : Concern → Run Unit → Prop
  | report (ev : Event) : Point ev.concern (Run.report ev.concern ev)
  | result (name : String) (ret : Ty) : Point .calls (Engine.announceResult name ret)
  | unification (l r : Ty) : Point .unify (liftM (announce l r))

/-- Nothing is ever reported, and the switches in force stay as they are. -/
def Mute (x : Run α) : Prop :=
  ∀ m : Machine, (m.after x).session.trace.active = m.session.trace.active
    ∧ (m.after x).session.trace.events = m.session.trace.events

/-- Run from the machine, inside of the given engine, the computation passes these moments. The
engine changes where an operation of another one starts. -/
inductive Passes : {α : Type} → Option Engine → Run α → Machine → List Moment → Prop
  | mute {α : Type} {inner : Option Engine} {x : Run α} {m : Machine} :
      Mute x → Passes inner x m []
  | point {inner : Option Engine} {c : Concern} {x : Run Unit} {m : Machine} {ev : Option Event} :
      Point c x → (m.after x).session.trace.events = m.session.trace.events ++ ev.toArray →
      Passes inner x m [⟨c, inner, m.session.trace, ev⟩]
  | bind {α β : Type} {inner : Option Engine} {x : Run α} {f : α → Run β} {m m' : Machine} {a : α}
      {ms ms' : List Moment} :
      Passes inner x m ms → x m = .ok a m' → Passes inner (f a) m' ms' →
      Passes inner (x >>= f) m (ms ++ ms')
  | bind_error {α β : Type} {inner : Option Engine} {x : Run α} {f : α → Run β} {m m' : Machine}
      {fault : Fault} {ms : List Moment} :
      Passes inner x m ms → x m = .error fault m' → Passes inner (x >>= f) m ms
  | observe {α : Type} {inner : Option Engine} {x : Run α} {m : Machine} {ms : List Moment} :
      Passes inner x m ms → Passes inner (Run.observe x) m ms
  | operation {α : Type} {inner : Option Engine} {e : Engine} {apply : Apply} {x body : Run α}
      {m : Machine} {ms : List Moment} :
      e.Performs apply x → x = e.traced body →
      Passes (some e) body (m.setActive (some e.settings.trace)) ms → Passes inner x m ms
  | occupied {α : Type} {inner : Option Engine} {e : Engine} {x : Run α} {m : Machine}
      {ms : List Moment} :
      Passes inner x { m with running := e.name :: m.running } ms → Passes inner (e.occupied x) m ms
  /-- A run may go by the store and by the engines that are busy. -/
  | depend {α : Type} {inner : Option Engine} {f : Store → List String → Run α} {m : Machine}
      {ms : List Moment} :
      Passes inner (f m.session.store m.running) m ms →
      Passes inner (get >>= fun m => f m.session.store m.running) m ms

end Run

/-! ## Every run passes moments -/

theorem Run.infer_bind {α β : Type} (x : Infer α) (f : α → Infer β) :
    (liftM (x >>= f) : Run β) = liftM x >>= fun a => liftM (f a) := by
  funext m
  simp only [Run.infer_eq, bind, EStateM.bind]
  cases x m.session with
  | ok a σ => rfl
  | error e σ => rfl

namespace Run

/-- A point reports an event if its concern is switched on, for which types may have been
rendered. -/
theorem Point.after_eq {c : Concern} {x : Run Unit} (hx : Point c x) (m : Machine) :
    ∃ (store : Store) (ev : Event), ev.concern = c ∧ m.after x
      = if m.enabled c then { m with session := { m.session with store }.emit ev } else m := by
  cases hx with
  | report ev => exact ⟨m.session.store, ev, rfl, rfl⟩
  | result name ret =>
      refine ⟨(ret.display m.session.store).2, .applied name (ret.display m.session.store).1, rfl,
        ?_⟩
      have hrun : Engine.announceResult name ret m = (if m.enabled .calls then
          liftM ret.display >>= fun text => Run.report .calls (.applied name text)
        else pure () : Run Unit) m := rfl
      rw [Machine.after, hrun]
      by_cases hm : m.enabled .calls
      · rw [if_pos hm, if_pos hm]
        exact if_pos hm
      · rw [if_neg hm, if_neg hm]
        rfl
  | unification l r =>
      let s := m.session.store
      refine ⟨(r.display (l.display s).2).2,
        .unify (l.display s).1 (r.display (l.display s).2).1, rfl, ?_⟩
      have hrun : announce l r m.session = (if m.enabled .unify then
          liftM l.display >>= fun left => liftM r.display >>= fun right =>
            modify (·.emit (.unify left right))
        else pure () : Infer Unit) m.session := rfl
      rw [Machine.after, Run.infer_eq, hrun]
      by_cases hm : m.enabled .unify
      · rw [if_pos hm, if_pos hm]
        rfl
      · rw [if_neg hm, if_neg hm]
        rfl

/-- What is reported at a point, if anything. -/
theorem Point.report_spec {c : Concern} {x : Run Unit} (hx : Point c x) (m : Machine) :
    ∃ ev : Option Event, ev.isSome = m.enabled c ∧ (∀ e ∈ ev, e.concern = c)
      ∧ (m.after x).session.trace.active = m.session.trace.active
      ∧ (m.after x).session.trace.events = m.session.trace.events ++ ev.toArray := by
  obtain ⟨store, ev, hev, hafter⟩ := hx.after_eq m
  rw [hafter]
  cases m.enabled c with
  | false => exact ⟨none, rfl, by simp, rfl, by simp⟩
  | true => exact ⟨some ev, rfl, by simpa using hev, rfl, by simp [Session.emit, Trace.push]⟩

theorem Passes.exists_point {c : Concern} {x : Run Unit} (hx : Point c x) (inner : Option Engine)
    (m : Machine) : ∃ ms, Passes inner x m ms := by
  obtain ⟨ev, -, -, -, hevents⟩ := hx.report_spec m
  exact ⟨_, .point hx hevents⟩

theorem Passes.exists_bind {α β : Type} {inner : Option Engine} {x : Run α} {f : α → Run β}
    {m : Machine} (hx : ∃ ms, Passes inner x m ms)
    (hf : ∀ a m', ∃ ms, Passes inner (f a) m' ms) : ∃ ms, Passes inner (x >>= f) m ms := by
  obtain ⟨ms, hms⟩ := hx
  cases hrun : x m with
  | ok a m' =>
      obtain ⟨ms', hms'⟩ := hf a m'
      exact ⟨ms ++ ms', hms.bind hrun hms'⟩
  | error fault m' => exact ⟨ms, hms.bind_error hrun⟩

end Run

theorem Infer.Built.passes {p : SupplyId} {α : Type} {x : Infer α} (hx : Built p x)
    (inner : Option Engine) (m : Machine) : ∃ ms, Run.Passes inner (liftM x) m ms := by
  induction hx generalizing m with
  | pure a => exact ⟨[], .mute fun _ => ⟨rfl, rfl⟩⟩
  | throw e => exact ⟨[], .mute fun _ => ⟨rfl, rfl⟩⟩
  | store _ => exact ⟨[], .mute fun _ => ⟨rfl, rfl⟩⟩
  | announce l r => exact Run.Passes.exists_point (.unification l r) inner m
  | bind _ _ ihx ihf =>
      rw [Run.infer_bind]
      exact Run.Passes.exists_bind (ihx m) ihf
  | @measure _ f _ ih =>
      obtain ⟨ms, hms⟩ := ih m.session.store m
      exact ⟨ms, .depend (f := fun s _ => liftM (f s)) hms⟩

namespace Run

theorem Built.passes {α : Type} {x : Run α} (hx : Built x) (inner : Option Engine) (m : Machine) :
    ∃ ms, Passes inner x m ms := by
  induction hx generalizing inner m with
  | pure a => exact ⟨[], .mute fun _ => ⟨rfl, rfl⟩⟩
  | throw f => exact ⟨[], .mute fun _ => ⟨rfl, rfl⟩⟩
  | infer hx => exact hx.passes inner m
  | report ev => exact Passes.exists_point (.report ev) inner m
  | announceResult name ret => exact Passes.exists_point (.result name ret) inner m
  | logCall name => exact ⟨[], .mute fun _ => ⟨rfl, rfl⟩⟩
  | bind _ _ ihx ihf => exact Passes.exists_bind (ihx inner m) fun a m' => ihf a inner m'
  | observe _ ih =>
      obtain ⟨ms, hms⟩ := ih inner m
      exact ⟨ms, hms.observe⟩
  | @operation _ _ _ e _ hperforms hx _ ih =>
      obtain ⟨ms, hms⟩ := ih (some e) (m.setActive (some e.settings.trace))
      exact ⟨ms, hms.operation hperforms hx⟩
  | occupied _ e ih =>
      obtain ⟨ms, hms⟩ := ih inner { m with running := e.name :: m.running }
      exact ⟨ms, hms.occupied⟩
  | @running _ f _ ih =>
      obtain ⟨ms, hms⟩ := ih m.running inner m
      exact ⟨ms, .depend (f := fun _ names => f names) hms⟩

/-! ## The switches in force -/

/-- All moments of the run are right, it reports nothing but their events, and leaves the switches
in force as they were. -/
structure Follows (x : Run α) (m : Machine) (ms : List Moment) : Prop where
  right : ∀ q ∈ ms, q.Right
  active : (m.after x).session.trace.active = m.session.trace.active
  events : (m.after x).session.trace.events
    = m.session.trace.events ++ (ms.filterMap Moment.event).toArray

/-- Inside of an engine its switches are in force. -/
def Inside (inner : Option Engine) (m : Machine) : Prop :=
  m.session.trace.active = inner.map fun e => e.settings.trace

theorem Inside.enabled_eq {inner : Option Engine} {m : Machine} (h : Inside inner m)
    (c : Concern) : m.enabled c = m.session.trace.asks inner c := by
  unfold Machine.enabled Trace.enabled Trace.asks
  rw [show m.session.trace.active = _ from h]
  cases m.session.trace.forced with
  | some switches => rfl
  | none =>
      cases inner with
      | some e => rfl
      | none => rfl

theorem Follows.point {inner : Option Engine} {c : Concern} {x : Run Unit} {m : Machine}
    {ev : Option Event} (hm : Inside inner m) (hx : Point c x)
    (hev : (m.after x).session.trace.events = m.session.trace.events ++ ev.toArray) :
    Follows x m [⟨c, inner, m.session.trace, ev⟩] := by
  obtain ⟨ev', hsome, hconcern, hactive, hevents⟩ := hx.report_spec m
  have heq : ev = ev' := by
    rw [hev, Array.append_right_inj] at hevents
    cases ev <;> cases ev' <;> simp_all
  subst heq
  refine ⟨fun q hq => ?_, hactive, ?_⟩
  · obtain rfl := List.mem_singleton.mp hq
    exact ⟨hsome.trans (hm.enabled_eq c), hconcern⟩
  · rw [hev]
    cases ev with
    | none => rfl
    | some ev => rfl

theorem Follows.bind {α β : Type} {x : Run α} {f : α → Run β} {m m' : Machine} {a : α}
    {ms ms' : List Moment} (hx : Follows x m ms) (hrun : x m = .ok a m')
    (hf : Follows (f a) m' ms') : Follows (x >>= f) m (ms ++ ms') := by
  have hm' := Machine.after_of_ok hrun
  have hafter := Machine.after_bind (f := f) hrun
  refine ⟨fun q hq => ?_, ?_, ?_⟩
  · exact (List.mem_append.mp hq).elim (hx.right q) (hf.right q)
  · rw [hafter, hf.active, ← hm', hx.active]
  · rw [hafter, hf.events, ← hm', hx.events, List.filterMap_append]
    simp

/-- The trace is all that counts. -/
theorem Follows.congr {α β : Type} {x : Run α} {y : Run β} {m m' : Machine} {ms : List Moment}
    (hx : Follows x m ms) (hm : m'.session.trace = m.session.trace)
    (hafter : (m'.after y).session.trace = (m.after x).session.trace) : Follows y m' ms where
  right := hx.right
  active := by rw [hafter, hm, hx.active]
  events := by rw [hafter, hm, hx.events]

/-- However it ends, an operation gives the switches back to the operation around it. -/
theorem Passes.follows {α : Type} {inner : Option Engine} {x : Run α} {m : Machine}
    {ms : List Moment} (h : Passes inner x m ms) (hm : Inside inner m) : Follows x m ms := by
  induction h with
  | mute hmute => exact ⟨(fun q hq => nomatch hq), (hmute _).1, by simp [(hmute _).2]⟩
  | point hx hev => exact .point hm hx hev
  | bind _ hrun _ ihx ihf =>
      have hx := ihx hm
      refine hx.bind hrun (ihf ?_)
      rw [Inside, ← Machine.after_of_ok hrun, hx.active]
      exact hm
  | bind_error _ hrun ih => exact (ih hm).congr rfl (by rw [Machine.after_bind_error hrun])
  | observe _ ih => exact (ih hm).congr rfl (by rw [Machine.after_observe])
  | @operation _ _ e _ x body m ms _ hx _ ih =>
      -- Inside of the operation the switches are those of its engine, whatever they were before.
      have hbody : Follows body (m.setActive (some e.settings.trace)) ms := ih rfl
      subst hx
      refine ⟨hbody.right, ?_, ?_⟩
      · rw [Machine.after_traced]
        rfl
      · rw [Machine.after_traced]
        exact hbody.events
  | occupied _ ih => exact (ih hm).congr rfl (by rw [Machine.after_occupied])
  | depend _ ih => exact (ih hm).congr rfl rfl

end Run

/-! ## Operations -/

theorem Engine.traced_traced (e : Engine) (x : Run α) : e.traced (e.traced x) = e.traced x := by
  funext m
  rw [traced_eq, traced_eq, traced_eq]
  show Run.restore _ (Run.restore _ (x (m.setActive (some e.settings.trace)))) = _
  cases x (m.setActive (some e.settings.trace)) with
  | ok a m' => rfl
  | error f m' => rfl

namespace Engine.Performs

variable {α : Type} {e : Engine} {apply : Apply} {x : Run α}

/-- The switches of its engine are in force throughout an operation: to put them in force around it
changes nothing. -/
theorem traced_eq (hx : e.Performs apply x) : e.traced x = x := by
  cases hx with
  | apply h func args => exact e.traced_traced _
  | call h name sig code bound args => exact e.traced_traced _
  | callMethod cls name dispatchOn args =>
      rw [Engine.callMethod]
      split
      · exact e.traced_traced _
      · rfl
  | callInstance cls ty name args => exact e.traced_traced _
  | typeOf v => exact e.traced_traced _
  | analyze x Γ => exact e.traced_traced _

theorem built (happly : apply.Built) (hx : e.Performs apply x) : Run.Built x := by
  cases hx with
  | apply h func args => exact h.applyWith_built happly e func args
  | call h name sig code bound args => exact h.callTyped_built happly e name sig code bound args
  | callMethod cls name dispatchOn args => exact e.callMethod_built happly cls name dispatchOn args
  | callInstance cls ty name args => exact e.callInstance_built happly cls ty name args
  | typeOf v => exact e.typeOf_built apply v
  | analyze x Γ => exact e.analyze_built apply x Γ

/-- The moments of an operation do not depend on the one around it. -/
theorem passes (happly : apply.Built) (hx : e.Performs apply x) (m : Machine) :
    ∃ ms, ∀ inner, Run.Passes inner x m ms := by
  obtain ⟨ms, hms⟩ := (hx.built happly).passes (some e) (m.setActive (some e.settings.trace))
  exact ⟨ms, fun inner => hms.operation hx hx.traced_eq.symm⟩

theorem active_after (hx : e.Performs apply x) (m : Machine) :
    (m.after x).session.trace.active = m.session.trace.active := by
  rw [← hx.traced_eq, Machine.after_traced]
  rfl

end Engine.Performs

/-! ## Programs -/

/-- What a program of the host may do: it carries out operations of engines one after another and
goes on as it likes after those that fail. In between it may make inferences of its own, force
switches and change the environment. -/
inductive Host.Program (h : Host) : {α : Type} → Run α → Prop
  | pure {α : Type} (a : α) : Program h (pure a)
  | throw {α : Type} (f : Fault) : Program h (throw f : Run α)
  | bind {α β : Type} {x : Run α} {f : α → Run β} :
      Program h x → (∀ a, Program h (f a)) → Program h (x >>= f)
  | observe {α : Type} {x : Run α} : Program h x → Program h (Run.observe x)
  | apply (e : Engine) (func : Value) (args : List Value) : Program h (h.apply e func args)
  | call (e : Engine) (name : String) (sig : Signature) (code : Code) (bound args : List Value) :
      Program h (h.call e name sig code bound args)
  | callMethod (e : Engine) (cls : ClassId) (name : String) (dispatchOn : ArgIndex)
      (args : List Value) : Program h (h.callMethod e cls name dispatchOn args)
  | callInstance (e : Engine) (cls : ClassId) (ty : TypeCon) (name : String) (args : List Value) :
      Program h (h.callInstance e cls ty name args)
  | typeOf (e : Engine) (v : Value) : Program h (e.typeOf v)
  | analyze (e : Engine) (x : Expr) (Γ : Env) : Program h (e.analyze x Γ)
  | infer {α : Type} {p : SupplyId} {x : Infer α} : Infer.Built p x → Program h (liftM x)
  | retrace (forced : Option Switches) (setting : Option String) :
      Program h (modify fun m =>
        { m with session.trace := { m.session.trace with forced, setting } })

theorem Host.Program.passes {h : Host} {α : Type} {x : Run α} (hx : h.Program x)
    (inner : Option Engine) (m : Machine) : ∃ ms, Run.Passes inner x m ms := by
  have happly : Apply.Built h.nested := h.applyWithin_built depthLimit
  induction hx generalizing m with
  | pure a => exact ⟨[], .mute fun _ => ⟨rfl, rfl⟩⟩
  | throw f => exact ⟨[], .mute fun _ => ⟨rfl, rfl⟩⟩
  | bind _ _ ihx ihf => exact Run.Passes.exists_bind (ihx m) ihf
  | observe _ ih =>
      obtain ⟨ms, hms⟩ := ih m
      exact ⟨ms, hms.observe⟩
  | apply e func args => exact ((happly e func args).occupied e).passes inner m
  | call e name sig code bound args =>
      exact ((h.callTyped_built happly e name sig code bound args).occupied e).passes inner m
  | callMethod e cls name dispatchOn args =>
      exact ((e.callMethod_built happly cls name dispatchOn args).occupied e).passes inner m
  | callInstance e cls ty name args =>
      exact ((e.callInstance_built happly cls ty name args).occupied e).passes inner m
  | typeOf e v => exact (e.typeOf_built h.nested v).passes inner m
  | analyze e x Γ => exact (e.analyze_built h.nested x Γ).passes inner m
  | infer hx => exact hx.passes inner m
  | retrace forced setting => exact ⟨[], .mute fun _ => ⟨rfl, rfl⟩⟩

/-- An operation of an engine, at whatever depth and however it ends, leaves the switches in force
as they were, and passes the same moments wherever it is started. A program passes moments, and at
each of them an event is reported if and only if the rule asks for it. -/
theorem events_follow_innermost_engine (h : Host) :
    (∀ {α : Type} (n : Nat) (e : Engine) (x : Run α), e.Performs (h.applyWithin n) x →
      ∀ m : Machine, (m.after x).session.trace.active = m.session.trace.active
        ∧ ∃ ms, ∀ inner, Run.Passes inner x m ms)
      ∧ ∀ {α : Type} (x : Run α), h.Program x → ∀ (inner : Option Engine) (m : Machine),
        Run.Inside inner m →
          (∃ ms, Run.Passes inner x m ms) ∧ ∀ ms, Run.Passes inner x m ms → Run.Follows x m ms := by
  refine ⟨fun n e x hx m => ?_, fun x hx inner m hm => ?_⟩
  · exact ⟨hx.active_after m, hx.passes (h.applyWithin_built n) m⟩
  · exact ⟨hx.passes inner m, fun ms hms => hms.follows hm⟩

/-- The engine `main` reports calls. The function that it runs has the engine `probe`, which reports
unifications, fail to type a list, and goes on. Afterwards the host unifies on its own, where the
environment asks for everything. -/
theorem events_follow_innermost_engine_sample :
    let main : Engine :=
      { name := "main", supply := 0, registry := {}, settings := { trace := { calls := true } } }
    let probe : Engine :=
      { name := "probe", supply := 1, registry := {}, settings := { trace := { unify := true } } }
    let mixed : Value := .list [.int 1, .bool true]
    let h : Host :=
      { functions := #[fun _ => .ask (some "probe") (.typeOf mixed) fun _ => .done (.int 2)]
        engines := [probe] }
    let int : Ty := .nullary .int
    let x : Run Unit :=
      h.call main "f" ⟨[int], int, []⟩ (.host 0) [] [.int 7] >>= fun _ => liftM (unify int int)
    let m : Machine :=
      { session.store.supplies := #[{}, {}], session.trace.setting := some "1" }
    h.Program x ∧ Run.Inside none m
      ∧ ∃ ms, Run.Passes none x m ms ∧ (∀ q ∈ ms, q.Right)
        ∧ ms.filterMap Moment.event
          = [.unify "Int" "Bool", .applied "f" "Int", .unify "Int" "Int"] := by
  intro main probe mixed h int x m
  have hx : h.Program x := .bind (.call ..) fun _ => .infer (.unify (p := 0) int int)
  have hevents : (m.after x).session.trace.events
      = #[.unify "Int" "Bool", .applied "f" "Int", .unify "Int" "Int"] := by decide +kernel
  obtain ⟨⟨ms, hms⟩, hfollows⟩ := (events_follow_innermost_engine h).2 x hx none m rfl
  obtain ⟨hright, -, hreported⟩ := hfollows ms hms
  refine ⟨hx, rfl, ms, hms, hright, ?_⟩
  rw [hevents] at hreported
  simpa [m] using hreported.symm

end Overload
