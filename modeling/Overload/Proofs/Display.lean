import Overload.Proofs.Outcome

/-!
# What a type is displayed as

Displaying a type shortens chains of links and hands out names on the way, so the text of one part
is made in another store than that of the next. A name that has been handed out is kept, though
(`Retains`). `Spells` gives the text as a function of names, and says that it is the same one with
the names of every later store: the parts can then be put together in the store at the end.

So a display shows the resolved term with its variables by name (`spells_display`), and once a term
has been displayed its text is settled: in any later store where it stands for the same it is
displayed the same (`Displays.display_eq`).
-/

namespace Overload

/-! ## The text of a term without links -/

namespace Ty

/-- The text of an applied constructor from those of its arguments, which depend on where the
arguments stand. -/
def layout : TypeCon → List (Position → String) → Position → String
  | .arrow, [domain, codomain], pos =>
      let text := domain .arrowLeft ++ " -> " ++ codomain .top
      if pos = .top then text else parenthesize text
  | .tuple, args, _ => parenthesize (", ".intercalate (args.map (· .top)))
  | c, args, pos =>
      let text := " ".intercalate (c.name :: args.map (· .argument))
      if pos = .argument ∧ args.length ≠ 0 then parenthesize text else text

mutual

/-- The text of a term with the given names for its variables. -/
def text (ν : Var → String) : Ty → Position → String
  | .var v => fun _ => ν v
  | .con c args => layout c (texts ν args)

def texts (ν : Var → String) : List Ty → List (Position → String)
  | [] => []
  | t :: ts => text ν t :: texts ν ts

end

theorem texts_eq (ν : Var → String) (ts : List Ty) : texts ν ts = ts.map (text ν) := by
  induction ts with
  | nil => rfl
  | cons t ts ih => rw [texts, ih, List.map_cons]

theorem text_var (ν : Var → String) (v : Var) (pos : Position) : (Ty.var v).text ν pos = ν v := by
  rw [text]

theorem text_con (ν : Var → String) (c : TypeCon) (args : List Ty) :
    (Ty.con c args).text ν = layout c (args.map (text ν)) := by
  rw [text, texts_eq]

/-- A constructor without a layout of its own is written before its arguments. -/
theorem layout_applied {c : TypeCon} {args : List Ty}
    (harrow : ∀ domain codomain, c = .arrow → args = [domain, codomain] → False)
    (htuple : c = .tuple → False) (f : Ty → Position → String) (pos : Position) :
    layout c (args.map f) pos
      = if pos = .argument ∧ args ≠ []
        then parenthesize (" ".intercalate (c.name :: args.map (f · .argument)))
        else " ".intercalate (c.name :: args.map (f · .argument)) := by
  unfold layout
  split
  · next heq =>
      obtain ⟨a, b, hargs⟩ := List.length_eq_two.mp (by simpa using congrArg List.length heq)
      exact (harrow a b rfl hargs).elim
  · exact (htuple rfl).elim
  · simp [Function.comp_def]

end Ty

namespace Store

/-! ## Names -/

/-- The name of a variable, once it has one. What is no variable of the store has an empty name. -/
def nameOf? (s : Store) (v : Var) : Option String :=
  s.cells[v.index]?.elim (some "") fun cell => cell.label.map letterName

def nameOf (s : Store) (v : Var) : String := (s.nameOf? v).getD ""

/-- Every name of `s` is one of `s'`, for the same variable. -/
def Retains (s s' : Store) : Prop := ∀ v x, s.nameOf? v = some x → s'.nameOf? v = some x

theorem Retains.refl (s : Store) : s.Retains s := fun _ _ h => h

theorem Retains.trans {s₁ s₂ s₃ : Store} (h : s₁.Retains s₂) (h' : s₂.Retains s₃) :
    s₁.Retains s₃ := fun v x hx => h' v x (h v x hx)

theorem retains_setLink (s : Store) (v : Var) (t : Ty) : s.Retains (s.setLink v t) := by
  intro w x hx
  rw [nameOf?] at hx ⊢
  rw [setLink, Array.getElem?_modify]
  split
  · cases hw : s.cells[w.index]? <;> rwa [hw] at hx
  · exact hx

theorem retains_prune (s : Store) (n : Nat) (t : Ty) : s.Retains (s.prune n t).2 := by
  induction n generalizing t with
  | zero => exact .refl s
  | succ n ih =>
      cases t with
      | con c args => exact .refl s
      | var v =>
          rw [prune]
          cases s.link? v with
          | none => exact .refl s
          | some t => exact (ih t).trans (retains_setLink _ v _)

theorem retains_name (s : Store) (v : Var) :
    s.Retains (v.name s).2 ∧ (v.name s).2.nameOf? v = some (v.name s).1 := by
  simp only [Var.name, modifyGet, MonadStateOf.modifyGet, StateT.modifyGet]
  cases hv : s.cells[v.index]? with
  | none => exact ⟨.refl s, by simp [nameOf?, hv, pure]⟩
  | some cell =>
      dsimp only
      cases hlabel : cell.label with
      | some i => exact ⟨.refl s, by simp [nameOf?, hv, hlabel, pure]⟩
      | none =>
          refine ⟨fun w x hx => ?_, by simp [nameOf?, hv, pure, Array.getElem?_modify]⟩
          -- a variable with a name is another one
          have hne : v.index ≠ w.index := by
            intro hvw
            rw [nameOf?, ← hvw, hv] at hx
            simp [hlabel] at hx
          simpa [nameOf?, pure, Array.getElem?_modify, hne] using hx

/-! ## Spelling -/

/-- After any amount of reading, `x` only reads and hands out names, and its answer is `g` of the
names in any store from then on. -/
def Spells (s : Store) (x : StoreM α) (g : (Var → String) → α) : Prop :=
  ∀ s₁, s.Quiet s₁ → s.Quiet (x s₁).2 ∧ s₁.Retains (x s₁).2
    ∧ ∀ s₂, (x s₁).2.Retains s₂ → (x s₁).1 = g s₂.nameOf

namespace Spells

variable {α β : Type} {s : Store}

theorem pure (a : α) : s.Spells (pure a) fun _ => a := fun s₁ h₁ => ⟨h₁, .refl s₁, fun _ _ => rfl⟩

theorem bind {x : StoreM α} {f : α → StoreM β} {g : (Var → String) → α}
    {h : α → (Var → String) → β} (hx : s.Spells x g) (hf : ∀ a, s.Spells (f a) (h a)) :
    s.Spells (x >>= f) fun ν => h (g ν) ν := by
  intro s₁ h₁
  obtain ⟨hq, hret, hg⟩ := hx s₁ h₁
  obtain ⟨hq', hret', hh⟩ := hf (x s₁).1 (x s₁).2 hq
  refine ⟨hq', hret.trans hret', fun s₂ h₂ => ?_⟩
  have ha : (x s₁).1 = g s₂.nameOf := hg s₂ (hret'.trans h₂)
  exact (hh s₂ h₂).trans (congrArg (h · s₂.nameOf) ha)

theorem map {x : StoreM α} {g : (Var → String) → α} (hx : s.Spells x g) (f : α → β) :
    s.Spells (x >>= fun a => Pure.pure (f a)) fun ν => f (g ν) :=
  hx.bind fun a => .pure (f a)

theorem mapM {f : α → StoreM β} {g : α → (Var → String) → β} {xs : List α}
    (h : ∀ x ∈ xs, s.Spells (f x) (g x)) : s.Spells (xs.mapM f) fun ν => xs.map (g · ν) := by
  induction xs with
  | nil => exact .pure []
  | cons x xs ih =>
      rw [List.mapM_cons]
      have ih := ih fun y hy => h y (List.mem_cons_of_mem _ hy)
      exact (h x (List.mem_cons_self ..)).bind fun b => ih.map (b :: ·)

theorem name (v : Var) : s.Spells v.name fun ν => ν v := by
  intro s₁ h₁
  obtain ⟨hret, hname⟩ := s₁.retains_name v
  refine ⟨h₁.trans (quiet_name h₁.wellFormed v), hret, fun s₂ h₂ => ?_⟩
  show (v.name s₁).1 = s₂.nameOf v
  rw [nameOf, h₂ v _ hname, Option.getD_some]

/-- A text is made along the resolved term. -/
theorem prune_bind (hs : s.WellFormed) {t : Ty} {f : Ty → StoreM α} {g : (Var → String) → α}
    (hvar : ∀ v, s.resolve t = .var v → s.Spells (f (.var v)) g)
    (hcon : ∀ c args, s.resolve t = .con c (args.map s.resolve) → s.Spells (f (.con c args)) g) :
    s.Spells (t.prune >>= f) g := by
  intro s₁ h₁
  obtain ⟨hr, hq⟩ := reads_prune hs t s₁ h₁
  have hret : s₁.Retains (t.prune s₁).2 := s₁.retains_prune s₁.size t
  have hf : s.Spells (f (t.prune s₁).1) g := by
    rcases hr.cases with ⟨v, hv, -, ht⟩ | ⟨c, args, hc, ht⟩
    · exact hv ▸ hvar v ht
    · exact hc ▸ hcon c args ht
  obtain ⟨hq', hret', hg⟩ := hf _ hq
  exact ⟨hq', hret.trans hret', hg⟩

end Spells

theorem spells_displayWithin {s : Store} (hs : s.WellFormed) (n : Nat) (pos : Position) {t : Ty}
    (hn : (s.resolve t).height < n) :
    s.Spells (Ty.displayWithin n pos t) fun ν => (s.resolve t).text ν pos := by
  induction n generalizing pos t with
  | zero => omega
  | succ n ih =>
      rw [Ty.displayWithin]
      refine Spells.prune_bind hs (fun v ht => ?_) fun c args ht => ?_
      · simp only [ht, Ty.text_var]
        exact .name v
      · have hargs : ∀ pos, ∀ a ∈ args,
            s.Spells (Ty.displayWithin n pos a) fun ν => (s.resolve a).text ν pos :=
          fun pos a ha => ih pos (height_resolve_lt_of_mem ht hn ha)
        simp only [ht, Ty.text_con, List.map_map]
        split
        · next h => cases h
        · next domain codomain h =>
            obtain ⟨rfl, rfl⟩ := Ty.con.inj h
            exact (hargs .arrowLeft domain (by simp)).bind fun left =>
              (hargs .top codomain (by simp)).map _
        · next h =>
            obtain ⟨rfl, rfl⟩ := Ty.con.inj h
            simp only [Ty.layout, List.map_map]
            exact (Spells.mapM (hargs .top)).map fun texts =>
              parenthesize (", ".intercalate texts)
        · next harrow htuple h =>
            obtain ⟨rfl, rfl⟩ := Ty.con.inj h
            simp only [Ty.layout_applied harrow htuple]
            exact (Spells.mapM (hargs .argument)).map fun texts =>
              if pos = .argument ∧ args ≠ [] then parenthesize (" ".intercalate (c.name :: texts))
              else " ".intercalate (c.name :: texts)

theorem spells_display {s : Store} (hs : s.WellFormed) (t : Ty) :
    s.Spells t.display fun ν => (s.resolve t).text ν .top := by
  intro s₁ h₁
  refine spells_displayWithin hs (s₁.budget [t]) .top ?_ s₁ h₁
  rw [← h₁.toAlike.resolve_eq hs t]
  exact s₁.height_resolve_lt_budget (List.mem_singleton.mpr rfl)

/-- The term is written `x` with the names of `s`, and with those of any store that retains them. -/
def Displays (s : Store) (t : Ty) (x : String) : Prop :=
  ∀ s', s.Retains s' → t.text s'.nameOf .top = x

theorem Displays.retains {s s' : Store} {t : Ty} {x : String} (h : s.Displays t x)
    (h' : s.Retains s') : s'.Displays t x := fun s₂ h₂ => h s₂ (h'.trans h₂)

theorem Displays.display_eq {s : Store} (hs : s.WellFormed) {t : Ty} {x : String}
    (h : s.Displays (s.resolve t) x) : (t.display s).1 = x := by
  obtain ⟨-, hret, htext⟩ := spells_display hs t s (.refl hs)
  rw [htext _ (.refl _)]
  exact h _ hret

end Store

/-- What has been displayed is shown from then on. -/
theorem Ends.display {s : Store} (hs : s.WellFormed) {σ : Session} (hσ : s.Quiet σ.store) (t : Ty)
    {f : String → Infer β} {Q : β → Session → Prop} {E : TypeError → Session → Prop}
    (hf : ∀ x σ', s.Quiet σ'.store → σ.store.Retains σ'.store →
      σ'.store.Displays (s.resolve t) x → Ends (f x) σ' Q E) :
    Ends (liftM t.display >>= f) σ Q E := by
  obtain ⟨hq, hret, htext⟩ := Store.spells_display hs t σ.store hσ
  exact Ends.lift_bind (hf _ _ hq hret fun s' hs' => (htext s' hs').symm)

end Overload
