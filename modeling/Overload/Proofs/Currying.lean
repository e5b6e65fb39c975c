import Overload.Proofs.Events
import Overload.Proofs.Outcome

/-!
# Arguments in groups

Functions without a signature, typed functions and methods each decide for themselves whether a
call has too few arguments, too many or just enough. What they have in common is stated once
(`Curried`): a function that holds arguments is called like the one without them on the longer
list, a call with too few arguments runs nothing, and one with too many is turned away untouched.
From this alone follows that it makes no difference how the arguments of a call are cut into groups
(`apply_in_groups`). The calls on the way leave nothing behind but events, and these nobody reads.
-/

namespace Overload

/-! ## Functions and what they hold -/

namespace Value

/-- How many arguments a function takes in all. -/
def arity? : Value → Option Nat
  | .builtin _ arity _ _ => some arity
  | .typed _ sig _ _ => some sig.arity
  | .method ref _ => some ref.arity
  | _ => none

/-- The arguments that a function has been given so far. -/
def held : Value → List Value
  | .builtin _ _ _ args => args
  | .typed _ _ _ args => args
  | .method _ args => args
  | _ => []

/-- The function with more arguments given. -/
def hold (more : List Value) : Value → Value
  | .builtin name arity code args => .builtin name arity code (args ++ more)
  | .typed name sig code args => .typed name sig code (args ++ more)
  | .method ref args => .method ref (args ++ more)
  | v => v

@[simp] theorem arity?_hold (func : Value) (xs : List Value) :
    (func.hold xs).arity? = func.arity? := by
  cases func <;> rfl

theorem held_hold {func : Value} {n : Nat} (h : func.arity? = some n) (xs : List Value) :
    (func.hold xs).held = func.held ++ xs := by
  cases func <;> first | rfl | cases h

@[simp] theorem hold_nil (func : Value) : func.hold [] = func := by
  cases func <;> simp [hold]

theorem hold_hold (func : Value) (xs ys : List Value) :
    (func.hold xs).hold ys = func.hold (xs ++ ys) := by
  cases func <;> simp [hold]

end Value

/-! ## Machines up to events -/

/-- The machine without its events. All else is kept: the store with its supplies, the log, the
switches and the engines in the middle of an operation. -/
def Machine.forget (m : Machine) : Machine := { m with session.trace.events := #[] }

theorem Machine.behind_forget (m : Machine) : m.forget.behind m.session.trace.events = m := by
  simp [forget, behind, Session.behind]

/-- From machines that differ in events, a run ends with one value or fault, on machines that differ
in events. -/
theorem Run.Unread.forget_eq {x : Run α} (hx : Run.Unread x) {m₁ m₂ : Machine}
    (h : m₁.forget = m₂.forget) :
    withState Machine.forget (x m₁) = withState Machine.forget (x m₂) :=
  hx.withState_eq (fun _ _ => rfl) (fun m => ⟨_, m.behind_forget⟩) h

/-! ## One call -/

/-- What a way of calling functions has to do with the arguments that they hold. -/
structure Curried (call : Value → List Value → Run Value) : Prop where
  hold : ∀ func xs ys, call (func.hold xs) ys = call func (xs ++ ys)
  unread : ∀ func xs, Run.Unread (call func xs)
  short : ∀ {func n} xs m, func.arity? = some n → func.held.length + xs.length < n →
    ∃ m', call func xs m = .ok (func.hold xs) m' ∧ m'.forget = m.forget
  excess : ∀ {func n} xs m, func.arity? = some n → n < func.held.length + xs.length →
    call func xs m = .error (.arity n (func.held.length + xs.length)) m

namespace Host

variable {h : Host} {apply : Apply} {e : Engine}

theorem applyWith_hold (func : Value) (xs ys : List Value) :
    h.applyWith apply e (func.hold xs) ys = h.applyWith apply e func (xs ++ ys) := by
  cases func <;> simp [applyWith, callTyped, Value.hold, Nat.add_assoc]

theorem callTyped_short (h : Host) (apply : Apply) (e : Engine) (name : String) {sig : Signature}
    (code : Code) {bound xs : List Value} (m : Machine)
    (hlt : bound.length + xs.length < sig.arity) :
    ∃ m', h.callTyped apply e name sig code bound xs m
        = .ok (.unsaturated (.typed name sig code (bound ++ xs))) m' ∧ m'.forget = m.forget := by
  have hle : ¬ sig.arity < bound.length + xs.length := by omega
  have hcall : h.callTyped apply e name sig code bound xs = e.traced (do
      Run.report .calls (.partialCall name (bound.length + xs.length) sig.arity)
      return .unsaturated (.typed name sig code (bound ++ xs))) := by
    simp [callTyped, hle, hlt]
  rw [hcall, Engine.traced_eq]
  refine ⟨_, rfl, ?_⟩
  show Machine.forget (Machine.setActive (if _ then _ else _) _) = _
  split <;> rfl

/-- With too few arguments nothing is run. -/
theorem applyWith_short {func : Value} {n : Nat} (xs : List Value) (m : Machine)
    (hfunc : func.arity? = some n) (hlt : func.held.length + xs.length < n) :
    ∃ m', h.applyWith apply e func xs m = .ok (func.hold xs) m' ∧ m'.forget = m.forget := by
  cases func with
  | builtin name arity code bound =>
      obtain rfl := Option.some.inj hfunc
      have hlt : bound.length + xs.length < arity := hlt
      have hle : ¬ arity < bound.length + xs.length := by omega
      refine ⟨m, ?_, rfl⟩
      simp only [applyWith, List.length_append, if_neg hle, if_neg (Nat.ne_of_lt hlt)]
      rfl
  | typed name sig code bound =>
      obtain rfl := Option.some.inj hfunc
      have hlt : bound.length + xs.length < sig.arity := hlt
      obtain ⟨m', hcall, hm'⟩ := h.callTyped_short apply e name code
        (m.setActive (some e.settings.trace)) hlt
      refine ⟨m'.setActive m.session.trace.active, ?_, ?_⟩
      · simp only [applyWith, Engine.traced_eq, bind, EStateM.bind, hcall]
        rfl
      · show m'.forget.setActive m.session.trace.active = m.forget
        rw [hm']
        rfl
  | method ref bound =>
      obtain rfl := Option.some.inj hfunc
      have hlt : bound.length + xs.length < ref.arity := hlt
      have hle : ¬ ref.arity < bound.length + xs.length := by omega
      refine ⟨m, ?_, rfl⟩
      simp only [applyWith, List.length_append, if_neg hle, if_pos hlt]
      rfl
  | _ => cases hfunc

/-- And with too many none is touched. -/
theorem applyWith_excess {func : Value} {n : Nat} (xs : List Value) (m : Machine)
    (hfunc : func.arity? = some n) (hlt : n < func.held.length + xs.length) :
    h.applyWith apply e func xs m = .error (.arity n (func.held.length + xs.length)) m := by
  cases func with
  | builtin name arity code bound =>
      obtain rfl := Option.some.inj hfunc
      have hlt : arity < bound.length + xs.length := hlt
      simp only [applyWith, List.length_append, if_pos hlt]
      rfl
  | typed name sig code bound =>
      obtain rfl := Option.some.inj hfunc
      have hlt : sig.arity < bound.length + xs.length := hlt
      simp only [applyWith, callTyped, if_pos hlt]
      rfl
  | method ref bound =>
      obtain rfl := Option.some.inj hfunc
      have hlt : ref.arity < bound.length + xs.length := hlt
      simp only [applyWith, List.length_append, if_pos hlt]
      rfl
  | _ => cases hfunc

theorem curried_applyWith (happly : apply.Built) : Curried (h.applyWith apply e) where
  hold := applyWith_hold
  unread func xs := (h.applyWith_built happly e func xs).unread
  short := applyWith_short
  excess := applyWith_excess

theorem curried_applyWithin (h : Host) (e : Engine) (depth : Nat) :
    Curried (h.applyWithin (depth + 1) e) :=
  curried_applyWith (h.applyWithin_built depth)

end Host

theorem Curried.occupied {call : Value → List Value → Run Value} (hcall : Curried call)
    (e : Engine) : Curried fun func xs => e.occupied (call func xs) where
  hold func xs ys := by rw [hcall.hold]
  unread func xs := .occupied (hcall.unread func xs) (fun _ _ => rfl) (fun _ _ _ => rfl) e
  short xs m hfunc hlt := by
    obtain ⟨m', hm, hm'⟩ := hcall.short xs { m with running := e.name :: m.running } hfunc hlt
    refine ⟨{ m' with running := m.running }, by rw [Engine.occupied_eq, hm]; rfl, ?_⟩
    show { m'.forget with running := m.running } = m.forget
    rw [hm']
    rfl
  excess xs m hfunc hlt := by
    rw [Engine.occupied_eq, hcall.excess xs _ hfunc hlt]
    rfl

/-- The ways to call functions in an engine: as an operation of its own, or from code that runs in
the middle of one. -/
inductive Host.Calls (h : Host) (e : Engine) : (Value → List Value → Run Value) → Prop
  | outer : h.Calls e (h.apply e)
  | inner (depth : Nat) : h.Calls e (h.applyWithin (depth + 1) e)

theorem Host.Calls.curried {h : Host} {e : Engine} {call : Value → List Value → Run Value}
    (hcall : h.Calls e call) : Curried call := by
  cases hcall with
  | outer => exact (h.curried_applyWithin e (depthLimit - 1)).occupied e
  | inner depth => exact h.curried_applyWithin e depth

/-! ## One call after another -/

namespace Curried

variable {call : Value → List Value → Run Value} {func : Value} {n : Nat}
  {groups : List (List Value)}

/-- While arguments are missing, all that happens is that the function holds more of them. -/
theorem foldlM_short (hcall : Curried call) (hfunc : func.arity? = some n)
    (hlt : groups = [] ∨ func.held.length + groups.flatten.length < n) (m : Machine) :
    ∃ m', groups.foldlM call func m = .ok (func.hold groups.flatten) m'
      ∧ m'.forget = m.forget := by
  induction groups generalizing func m with
  | nil => exact ⟨m, by simp; rfl, rfl⟩
  | cons xs groups ih =>
      have hlt : func.held.length + (xs ++ groups.flatten).length < n := by simpa using hlt
      rw [List.length_append] at hlt
      obtain ⟨m₁, hfirst, hm₁⟩ := hcall.short xs m hfunc (by omega)
      have hheld : (func.hold xs).held.length = func.held.length + xs.length := by
        rw [Value.held_hold hfunc, List.length_append]
      have hfunc₁ : (func.hold xs).arity? = some n := by rwa [Value.arity?_hold]
      obtain ⟨m₂, hrest, hm₂⟩ := ih hfunc₁ (.inr (by omega)) m₁
      refine ⟨m₂, ?_, hm₂.trans hm₁⟩
      rw [List.foldlM_cons, bind_of_ok hfirst, hrest, Value.hold_hold, List.flatten_cons]

/-- All groups but the last are as if they had been given with it. -/
theorem foldlM_eq (hcall : Curried call) (hfunc : func.arity? = some n)
    (hlt : groups = [] ∨ func.held.length + groups.flatten.length < n) (last : List Value)
    (m : Machine) :
    ∃ m', (groups ++ [last]).foldlM call func m = call func (groups ++ [last]).flatten m'
      ∧ m'.forget = m.forget := by
  obtain ⟨m', hshort, hm'⟩ := hcall.foldlM_short hfunc hlt m
  refine ⟨m', ?_, hm'⟩
  rw [List.foldlM_append, List.flatten_append, List.flatten_singleton, ← hcall.hold]
  rw [bind_of_ok hshort, List.foldlM_cons]
  simp

end Curried

/-- However the arguments of a function are cut into groups, as long as each group but the last
leaves some missing, to apply it to one group after another comes to the same as to apply it to all
at once: the same value or fault, and the same machine up to events. On the way the function holds
no more arguments than it takes, and nothing but events changes. Too many arguments are turned away
with the machine as it was. -/
theorem apply_in_groups {h : Host} {e : Engine} {call : Value → List Value → Run Value}
    (hcall : h.Calls e call) {func : Value} {n : Nat} (hfunc : func.arity? = some n)
    (hheld : func.held.length ≤ n) {groups : List (List Value)} (hne : groups ≠ [])
    (hcut : ∀ k, 0 < k → k < groups.length →
      func.held.length + (groups.take k).flatten.length < n) (m : Machine) :
    withState Machine.forget (groups.foldlM call func m)
        = withState Machine.forget (call func groups.flatten m)
    ∧ (∀ k, k < groups.length ∨ func.held.length + (groups.take k).flatten.length < n →
        ∃ m', (groups.take k).foldlM call func m = .ok (func.hold (groups.take k).flatten) m'
          ∧ m'.forget = m.forget ∧ (func.hold (groups.take k).flatten).held.length ≤ n)
    ∧ (n < func.held.length + groups.flatten.length →
        call func groups.flatten m
            = .error (.arity n (func.held.length + groups.flatten.length)) m
        ∧ ∃ m', groups.foldlM call func m
            = .error (.arity n (func.held.length + groups.flatten.length)) m'
          ∧ m'.forget = m.forget) := by
  have hcurried := hcall.curried
  have hshort : ∀ k, k < groups.length ∨ func.held.length + (groups.take k).flatten.length < n →
      groups.take k = [] ∨ func.held.length + (groups.take k).flatten.length < n := by
    intro k hk
    rcases Nat.eq_zero_or_pos k with rfl | hpos
    · exact .inl (List.take_zero ..)
    · exact .inr (hk.elim (hcut k hpos) id)
  -- the calls before the last one, and then the last
  have hlen := List.length_pos_iff.mpr hne
  have hinit := hshort (groups.length - 1) (.inl (by omega))
  rw [← List.dropLast_eq_take] at hinit
  obtain ⟨m₁, hall, hm₁⟩ := hcurried.foldlM_eq hfunc hinit (groups.getLast hne) m
  rw [List.dropLast_concat_getLast] at hall
  refine ⟨?_, fun k hk => ?_, fun hlt => ?_⟩
  · rw [hall]
    exact Run.Unread.forget_eq (hcurried.unread func groups.flatten) hm₁
  · obtain ⟨m', hm, hm'⟩ := hcurried.foldlM_short hfunc (hshort k hk) m
    refine ⟨m', hm, hm', ?_⟩
    rw [Value.held_hold hfunc, List.length_append]
    rcases hshort k hk with hnil | hlt
    · simpa [hnil] using hheld
    · exact Nat.le_of_lt hlt
  · have hexcess := fun m => hcurried.excess groups.flatten m hfunc hlt
    exact ⟨hexcess m, m₁, hall.trans (hexcess m₁), hm₁⟩

/-- A typed function gets its two arguments one by one, and in between an empty group. -/
theorem apply_in_groups_sample :
    let h : Host := { functions := #[fun args => .done (args.headD .unit)] }
    let e : Engine := { name := "e", supply := 0, registry := {} }
    let int : Ty := .nullary .int
    let func : Value := .typed "first" ⟨[int, int], int, []⟩ (.host 0) []
    let groups : List (List Value) := [[.int 1], [], [.int 2]]
    let m : Machine := { session.store.supplies := #[{}] }
    func.arity? = some 2 ∧ func.held.length ≤ 2 ∧ groups ≠ []
      ∧ (∀ k, 0 < k → k < groups.length → func.held.length + (groups.take k).flatten.length < 2)
      ∧ withState Machine.forget (groups.foldlM (h.apply e) func m)
        = withState Machine.forget (h.apply e func groups.flatten m)
      ∧ ∃ m', (groups.take 2).foldlM (h.apply e) func m = .ok (func.hold [.int 1]) m'
        ∧ m'.forget = m.forget := by
  intro h e int func groups m
  have hfunc : func.arity? = some 2 := rfl
  have hne : groups ≠ [] := by decide
  have hcut : ∀ k, 0 < k → k < groups.length →
      func.held.length + (groups.take k).flatten.length < 2 := by
    intro k hpos hlt
    have hlen : groups.length = 3 := rfl
    obtain rfl | rfl : k = 1 ∨ k = 2 := by omega
    · decide
    · decide
  obtain ⟨heq, hway, -⟩ := apply_in_groups (h := h) (e := e) .outer hfunc (by decide) hne hcut m
  obtain ⟨m', hm, hm', -⟩ := hway 2 (.inl (by decide))
  exact ⟨hfunc, by decide, hne, hcut, heq, m', hm, hm'⟩

end Overload
