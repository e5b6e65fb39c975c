import Overload.Proofs.Naming
import Overload.Proofs.Unification

/-!
# Types from their texts

The text of a type determines the type. Texts are put together from words and from five marks: a
blank, the two parentheses, the comma, and the dash that an arrow starts with. What a text is cut
by depends on where it stands, and `Stops` lists what can follow it there. The main lemma
(`Legible.readable`) reads from left to right: if two texts at the same place, each followed by
something that stops it, are equal as a whole, the types are equal and so is what follows.

The three positions differ by what is put in parentheses, and the parts of the proof follow that.
A term that stands bare on the left of an arrow stands the same at the top (`Readable.top`), and
one that is put in parentheses is read inside of them as at the top (`Readable.parenthesized`).

A tuple with one item would be written like the item, and an arrow with another number of arguments
than two like a constructor with a strange name; `Legible` leaves these out.
-/

namespace Overload

/-! ## Words and marks -/

/-- The characters that do not belong to words. -/
def isMark (c : Char) : Bool := c ∈ [' ', '(', ')', ',', '-']

def IsWord (w : List Char) : Prop := w ≠ [] ∧ ∀ c ∈ w, isMark c = false

/-- What a text can be followed by. On the left of an arrow this may also be the arrow, and after
an argument the blank before the next one. -/
inductive Stops : Position → List Char → Prop
  | finish (pos : Position) : Stops pos []
  | close (pos : Position) (rest : List Char) : Stops pos (')' :: rest)
  | comma (pos : Position) (rest : List Char) : Stops pos (',' :: rest)
  | arrow {pos : Position} (rest : List Char) : pos ≠ .top → Stops pos (' ' :: '-' :: rest)
  | blank (rest : List Char) : Stops .argument (' ' :: rest)

namespace Stops

variable {pos : Position} {rest : List Char}

theorem mark (h : Stops pos rest) : ∀ c ∈ rest.head?, isMark c = true := by
  cases h <;> simp [isMark]

theorem of_top (h : Stops .top rest) (pos : Position) : Stops pos rest := by
  cases h with
  | finish => exact .finish pos
  | close _ rest => exact .close pos rest
  | comma _ rest => exact .comma pos rest
  | arrow rest hpos => exact absurd rfl hpos

theorem of_arrowLeft (h : Stops .arrowLeft rest) : Stops .argument rest := by
  cases h with
  | finish => exact .finish _
  | close _ rest => exact .close _ rest
  | comma _ rest => exact .comma _ rest
  | arrow rest _ => exact .blank _

theorem not_blank_of_top (h : Stops .top rest) (rest' : List Char) : rest ≠ ' ' :: rest' := by
  rintro rfl
  cases h with
  | arrow rest hpos => exact hpos rfl

/-- A blank on the left of an arrow is the one before the arrow. -/
theorem dash_of_arrowLeft (h : Stops .arrowLeft (' ' :: rest)) : ∃ rest', rest = '-' :: rest' := by
  cases h with
  | arrow rest' _ => exact ⟨rest', rfl⟩

end Stops

/-- A word ends at the first mark. -/
theorem IsWord.append_inj {w w' r r' : List Char} (hw : IsWord w) (hw' : IsWord w')
    (hr : ∀ c ∈ r.head?, isMark c = true) (hr' : ∀ c ∈ r'.head?, isMark c = true)
    (h : w ++ r = w' ++ r') : w = w' ∧ r = r' := by
  have hcut : ∀ {w r : List Char}, IsWord w → (∀ c ∈ r.head?, isMark c = true) →
      (w ++ r).takeWhile (!isMark ·) = w := by
    intro w r hw hr
    rw [List.takeWhile_append_of_pos fun c hc => by simp [hw.2 c hc]]
    cases r with
    | nil => simp
    | cons c r => simp [hr c rfl]
  have heq : w = w' := by rw [← hcut hw hr, h, hcut hw' hr']
  subst heq
  exact ⟨rfl, List.append_cancel_left h⟩

/-! ## Texts by their characters -/

namespace Ty

/-- The characters of the text of a term. -/
def spell (ν : Var → String) (t : Ty) (pos : Position) : List Char := (t.text ν pos).toList

/-- Terms one after another, each with the separator before it. -/
def spellAll (ν : Var → String) (sep : List Char) (pos : Position) (ts : List Ty) : List Char :=
  ts.flatMap fun t => sep ++ t.spell ν pos

/-- The word that the text of a term starts with, if it has no layout of its own, and the
arguments after it. -/
def lead? (ν : Var → String) : Ty → Option (String × List Ty)
  | .var v => some (ν v, [])
  | .con .arrow _ => none
  | .con .tuple _ => none
  | .con c args => some (c.name, args)

variable {ν : Var → String} {t : Ty} {pos : Position}

theorem spellAll_cons (sep : List Char) (t : Ty) (ts : List Ty) :
    spellAll ν sep pos (t :: ts) = sep ++ (t.spell ν pos ++ spellAll ν sep pos ts) := by
  simp [spellAll]

theorem intercalate_cons (sep x : List Char) (xs : List (List Char)) :
    sep.intercalate (x :: xs) = x ++ xs.flatMap (sep ++ ·) := by
  induction xs generalizing x with
  | nil => simp
  | cons y ys ih => simp [ih]

theorem spell_fn_top (a b : Ty) :
    (Ty.fn a b).spell ν .top
      = a.spell ν .arrowLeft ++ (' ' :: '-' :: '>' :: ' ' :: b.spell ν .top) := by
  simp [spell, Ty.fn, text_con, layout]

theorem spell_fn (a b : Ty) (hpos : pos ≠ .top) :
    (Ty.fn a b).spell ν pos = '(' :: ((Ty.fn a b).spell ν .top ++ [')']) := by
  simp [spell, Ty.fn, text_con, layout, hpos, parenthesize]

theorem spell_tuple_nil : (Ty.tuple []).spell ν pos = ['(', ')'] := by
  simp [spell, Ty.tuple, text_con, layout, parenthesize]

theorem spell_tuple_cons (a : Ty) (items : List Ty) :
    (Ty.tuple (a :: items)).spell ν pos
      = '(' :: (a.spell ν .top ++ (spellAll ν [',', ' '] .top items ++ [')'])) := by
  simp [spell, spellAll, Ty.tuple, text_con, layout, parenthesize, String.toList_intercalate,
    intercalate_cons, List.flatMap_map, Function.comp_def]

theorem lead?_con {c : TypeCon} (args : List Ty) (harrow : c ≠ .arrow) (htuple : c ≠ .tuple) :
    (Ty.con c args).lead? ν = some (c.name, args) := by
  cases c with
  | arrow => exact absurd rfl harrow
  | tuple => exact absurd rfl htuple
  | _ => rfl

theorem spell_of_lead {w : String} {args : List Ty} (h : t.lead? ν = some (w, args)) :
    t.spell ν pos = if pos = .argument ∧ args ≠ []
      then '(' :: (w.toList ++ spellAll ν [' '] .argument args ++ [')'])
      else w.toList ++ spellAll ν [' '] .argument args := by
  cases t with
  | var v =>
      cases h
      simp [spell, text_var, spellAll]
  | con c args' =>
      have harrow : c ≠ .arrow := by
        rintro rfl
        cases h
      have htuple : c ≠ .tuple := by
        rintro rfl
        cases h
      rw [lead?_con args' harrow htuple] at h
      cases h
      rw [spell, text_con, layout_applied (fun _ _ hc _ => harrow hc) htuple]
      split
      · simp [parenthesize, String.toList_intercalate, intercalate_cons, spellAll, spell,
          List.flatMap_map, Function.comp_def]
      · simp [String.toList_intercalate, intercalate_cons, spellAll, spell, List.flatMap_map,
          Function.comp_def]

/-! ## Legible terms -/

/-- Terms over the given variables and constructors, where `->` has two arguments and a tuple has
not just one item. -/
inductive Legible (V : Var → Prop) (cs : List TypeCon) : Ty → Prop
  | var {v : Var} : V v → Legible V cs (.var v)
  | fn {a b : Ty} : Legible V cs a → Legible V cs b → Legible V cs (.fn a b)
  | tuple {items : List Ty} : items.length ≠ 1 → (∀ t ∈ items, Legible V cs t) →
      Legible V cs (.tuple items)
  | applied {c : TypeCon} {args : List Ty} : c ∈ cs → c ≠ .arrow → c ≠ .tuple →
      (∀ t ∈ args, Legible V cs t) → Legible V cs (.con c args)

end Ty

/-- Variables and constructors are named by words, each by one of its own. -/
structure Distinguishes (ν : Var → String) (V : Var → Prop) (cs : List TypeCon) : Prop where
  var_word {v : Var} : V v → IsWord (ν v).toList
  var_inj {v w : Var} : V v → V w → ν v = ν w → v = w
  con_word {c : TypeCon} : c ∈ cs → c ≠ .arrow → c ≠ .tuple → IsWord c.name.toList
  con_inj {c d : TypeCon} : c ∈ cs → d ∈ cs → c.name = d.name → c = d
  apart {v : Var} {c : TypeCon} : V v → c ∈ cs → c ≠ .arrow → c ≠ .tuple → ν v ≠ c.name

namespace Ty

variable {ν : Var → String} {V : Var → Prop} {cs : List TypeCon} {t u : Ty} {pos : Position}

/-- The word and the arguments after it determine the term. -/
theorem Legible.of_lead (hν : Distinguishes ν V cs) (ht : Legible V cs t) {w : String}
    {args : List Ty} (hlead : t.lead? ν = some (w, args)) :
    IsWord w.toList ∧ (∀ a ∈ args, Legible V cs a)
      ∧ ∀ u, Legible V cs u → u.lead? ν = some (w, args) → t = u := by
  cases ht with
  | fn _ _ => cases hlead
  | tuple _ _ => cases hlead
  | var hv =>
      cases hlead
      refine ⟨hν.var_word hv, by simp, fun u hu hlead' => ?_⟩
      cases hu with
      | fn _ _ => cases hlead'
      | tuple _ _ => cases hlead'
      | var hw =>
          rw [hν.var_inj hv hw (congrArg Prod.fst (Option.some.inj hlead')).symm]
      | applied hc harrow htuple _ =>
          rw [lead?_con _ harrow htuple] at hlead'
          have hname := congrArg Prod.fst (Option.some.inj hlead')
          exact absurd hname.symm (hν.apart hv hc harrow htuple)
  | applied hc harrow htuple hargs =>
      rw [lead?_con _ harrow htuple] at hlead
      cases hlead
      refine ⟨hν.con_word hc harrow htuple, hargs, fun u hu hlead' => ?_⟩
      cases hu with
      | fn _ _ => cases hlead'
      | tuple _ _ => cases hlead'
      | var hw =>
          have hname := congrArg Prod.fst (Option.some.inj hlead')
          exact absurd hname (hν.apart hw hc harrow htuple)
      | applied hd harrow' htuple' _ =>
          rw [lead?_con _ harrow' htuple', Option.some.injEq, Prod.mk.injEq] at hlead'
          obtain ⟨hname, rfl⟩ := hlead'
          rw [hν.con_inj hd hc hname]

/-- How a term is written on the left of an arrow and as an argument. -/
inductive Form (ν : Var → String) (V : Var → Prop) (cs : List TypeCon) (pos : Position) : Ty → Prop
  /-- A word, and after it the arguments. -/
  | bare {t : Ty} {w : String} {args : List Ty} : t.lead? ν = some (w, args) →
      (pos = .argument → args = []) → Form ν V cs pos t
  | unit : Form ν V cs pos (.tuple [])
  | tuple {a b : Ty} {items : List Ty} : (∀ t ∈ a :: b :: items, Legible V cs t) →
      Form ν V cs pos (.tuple (a :: b :: items))
  /-- The text from the top, in parentheses. -/
  | parenthesized {t : Ty} : t.spell ν pos = '(' :: (t.spell ν .top ++ [')']) → Form ν V cs pos t

theorem form_of_lead {w : String} {args : List Ty} (hlead : t.lead? ν = some (w, args)) :
    Form ν V cs pos t := by
  by_cases hpar : pos = .argument ∧ args ≠ []
  · refine .parenthesized ?_
    rw [spell_of_lead hlead, if_pos hpar, spell_of_lead hlead, if_neg (by simp)]
  · refine .bare hlead fun harg => ?_
    by_cases hnil : args = []
    · exact hnil
    · exact absurd ⟨harg, hnil⟩ hpar

theorem Legible.form (ht : Legible V cs t) {pos : Position} (hpos : pos ≠ .top) :
    Form ν V cs pos t := by
  cases ht with
  | var hv => exact form_of_lead rfl
  | fn ha hb => exact .parenthesized (spell_fn _ _ hpos)
  | @tuple items hlen hitems =>
      rcases items with _ | ⟨a, _ | ⟨b, items⟩⟩
      · exact .unit
      · exact absurd rfl hlen
      · exact .tuple hitems
  | applied hc harrow htuple hargs => exact form_of_lead (lead?_con _ harrow htuple)

theorem spell_bare {w : String} {args : List Ty} (hlead : t.lead? ν = some (w, args))
    (hnil : pos = .argument → args = []) :
    t.spell ν pos = w.toList ++ spellAll ν [' '] .argument args := by
  rw [spell_of_lead hlead, if_neg]
  rintro ⟨hpos, hne⟩
  exact hne (hnil hpos)

/-- A term that is no arrow is written at the top as on the left of one. -/
theorem Legible.spell_top (ht : Legible V cs t) :
    (∃ a b, t = .fn a b ∧ Legible V cs a ∧ Legible V cs b)
      ∨ t.spell ν .top = t.spell ν .arrowLeft := by
  have hlead : ∀ {w : String} {args : List Ty}, t.lead? ν = some (w, args) →
      t.spell ν .top = t.spell ν .arrowLeft := by
    intro w args h
    rw [spell_bare h (by simp), spell_bare h (by simp)]
  cases ht with
  | var hv => exact .inr (hlead rfl)
  | @fn a b ha hb => exact .inl ⟨a, b, rfl, ha, hb⟩
  | @tuple items hlen hitems =>
      cases items with
      | nil => exact .inr (by rw [spell_tuple_nil, spell_tuple_nil])
      | cons a items => exact .inr (by rw [spell_tuple_cons, spell_tuple_cons])
  | applied hc harrow htuple hargs => exact .inr (hlead (lead?_con _ harrow htuple))

/-- A text starts with a word or with a parenthesis. -/
theorem Legible.exists_cons (hν : Distinguishes ν V cs) (ht : Legible V cs t) (pos : Position) :
    ∃ c rest, t.spell ν pos = c :: rest ∧ (isMark c = false ∨ c = '(') := by
  have hform : ∀ {t : Ty} {pos : Position}, Legible V cs t → pos ≠ .top →
      ∃ c rest, t.spell ν pos = c :: rest ∧ (isMark c = false ∨ c = '(') := by
    intro t pos ht hpos
    cases ht.form (ν := ν) hpos with
    | @bare _ w args hlead hnil =>
        obtain ⟨hw, -⟩ := ht.of_lead hν hlead
        obtain ⟨c, rest, hc⟩ := List.exists_cons_of_ne_nil hw.1
        refine ⟨c, _, by rw [spell_bare hlead hnil, hc]; rfl, .inl (hw.2 c ?_)⟩
        rw [hc]
        exact List.mem_cons_self
    | unit => exact ⟨'(', _, spell_tuple_nil, .inr rfl⟩
    | tuple hitems => exact ⟨'(', _, spell_tuple_cons _ _, .inr rfl⟩
    | parenthesized heq => exact ⟨'(', _, heq, .inr rfl⟩
  have hleft : Position.arrowLeft ≠ .top := by decide
  by_cases hpos : pos = .top
  · subst hpos
    rcases ht.spell_top (ν := ν) with ⟨a, b, rfl, ha, -⟩ | heq
    · obtain ⟨c, rest, hc, hmark⟩ := hform ha hleft
      exact ⟨c, _, by rw [spell_fn_top, hc]; rfl, hmark⟩
    · rw [heq]
      exact hform ht hleft
  · exact hform ht hpos

theorem Legible.spell_ne_cons (hν : Distinguishes ν V cs) (ht : Legible V cs t) {c : Char}
    (hmark : isMark c = true) (hopen : c ≠ '(') (x y : List Char) :
    t.spell ν pos ++ x ≠ c :: y := by
  obtain ⟨c', rest, heq, hc'⟩ := ht.exists_cons hν pos
  rw [heq, List.cons_append]
  intro h
  obtain ⟨rfl, -⟩ := List.cons.inj h
  rcases hc' with hc' | hc'
  · cases hc'.symm.trans hmark
  · exact hopen hc'

theorem Legible.bare_ne_open (hν : Distinguishes ν V cs) (ht : Legible V cs t) {w : String}
    {args : List Ty} (hlead : t.lead? ν = some (w, args)) (hnil : pos = .argument → args = [])
    (x y : List Char) : t.spell ν pos ++ x ≠ '(' :: y := by
  obtain ⟨hw, -⟩ := ht.of_lead hν hlead
  obtain ⟨c, rest, hc⟩ := List.exists_cons_of_ne_nil hw.1
  rw [spell_bare hlead hnil, hc]
  intro h
  obtain ⟨rfl, -⟩ := List.cons.inj h
  exact absurd (hw.2 '(' (hc ▸ List.mem_cons_self)) (by decide)

/-! ## Reading from left to right -/

/-- Up to where the text of the term can end, the same characters are no text of another term. -/
def Readable (ν : Var → String) (V : Var → Prop) (cs : List TypeCon) (t : Ty) (pos : Position) :
    Prop :=
  ∀ u r r', Legible V cs u → Stops pos r → Stops pos r' →
    t.spell ν pos ++ r = u.spell ν pos ++ r' → t = u ∧ r = r'

namespace Readable

/-- On the left of an arrow, the arrow that follows would be part of the text at the top. -/
theorem top (h : Readable ν V cs t .arrowLeft) (hspell : t.spell ν .top = t.spell ν .arrowLeft) :
    Readable ν V cs t .top := by
  intro u r r' hu hr hr' heq
  rw [hspell] at heq
  rcases hu.spell_top (ν := ν) with ⟨a, b, rfl, ha, -⟩ | htop
  · rw [spell_fn_top, List.append_assoc] at heq
    obtain ⟨-, hrest⟩ := h a r _ ha (hr.of_top _) (.arrow _ (by decide)) heq
    exact absurd hrest (hr.not_blank_of_top _)
  · rw [htop] at heq
    exact h u r r' hu (hr.of_top _) (hr'.of_top _) heq

theorem fn {a b : Ty} (ha : Readable ν V cs a .arrowLeft) (hb : Readable ν V cs b .top) :
    Readable ν V cs (.fn a b) .top := by
  intro u r r' hu hr hr' heq
  rcases hu.spell_top (ν := ν) with ⟨a', b', rfl, ha', hb'⟩ | htop
  · simp only [spell_fn_top, List.append_assoc, List.cons_append] at heq
    obtain ⟨rfl, hright⟩ := ha a' _ _ ha' (.arrow _ (by decide)) (.arrow _ (by decide)) heq
    simp only [List.cons.injEq, true_and] at hright
    obtain ⟨rfl, hrest⟩ := hb b' r r' hb' hr hr' hright
    exact ⟨rfl, hrest⟩
  · simp only [spell_fn_top, htop, List.append_assoc, List.cons_append] at heq
    obtain ⟨-, hrest⟩ := ha u _ r' hu (.arrow _ (by decide)) (hr'.of_top _) heq
    exact absurd hrest.symm (hr'.not_blank_of_top _)

theorem parenthesized (hν : Distinguishes ν V cs) (ht : Legible V cs t) (hpos : pos ≠ .top)
    (h : Readable ν V cs t .top) (hspell : t.spell ν pos = '(' :: (t.spell ν .top ++ [')'])) :
    Readable ν V cs t pos := by
  intro u r r' hu hr hr' heq
  simp only [hspell, List.cons_append, List.append_assoc, List.nil_append] at heq
  cases hu.form (ν := ν) hpos with
  | bare hlead hnil => exact absurd heq.symm (hu.bare_ne_open hν hlead hnil _ _)
  | unit =>
      rw [spell_tuple_nil] at heq
      exact absurd (List.cons.inj heq).2 (ht.spell_ne_cons hν (by decide) (by decide) _ _)
  | @tuple a b items hitems =>
      simp only [spell_tuple_cons, spellAll_cons, List.cons_append, List.append_assoc,
        List.nil_append, List.cons.injEq, true_and] at heq
      obtain ⟨-, hrest⟩ := h a _ _ (hitems a List.mem_cons_self) (.close _ r) (.comma _ _) heq
      cases hrest
  | parenthesized hu' =>
      simp only [hu', List.cons_append, List.append_assoc, List.nil_append, List.cons.injEq,
        true_and] at heq
      obtain ⟨rfl, hrest⟩ := h u _ _ hu (.close _ r) (.close _ r') heq
      exact ⟨rfl, (List.cons.inj hrest).2⟩

/-- Lists of terms, up to what tells that there is no next one. -/
theorem all {sep : List Char} (Last : List Char → Prop) (hlast : ∀ r, Last r → Stops pos r)
    (hsep : ∀ x, Stops pos (sep ++ x))
    (hnext : ∀ r a x, Last r → Legible V cs a → r ≠ sep ++ (a.spell ν pos ++ x))
    {ts us : List Ty} (hts : ∀ t ∈ ts, Legible V cs t ∧ Readable ν V cs t pos)
    (hus : ∀ u ∈ us, Legible V cs u) {r r' : List Char} (hr : Last r) (hr' : Last r')
    (heq : spellAll ν sep pos ts ++ r = spellAll ν sep pos us ++ r') : ts = us ∧ r = r' := by
  have hstops : ∀ (ts : List Ty) {r : List Char}, Last r →
      Stops pos (spellAll ν sep pos ts ++ r) := by
    intro ts r hr
    cases ts with
    | nil => exact hlast r hr
    | cons t ts =>
        simp only [spellAll_cons, List.append_assoc]
        exact hsep _
  induction ts generalizing us with
  | nil =>
      cases us with
      | nil => exact ⟨rfl, heq⟩
      | cons u us =>
          simp only [spellAll_cons, List.append_assoc] at heq
          exact absurd heq (hnext r u _ hr (hus u List.mem_cons_self))
  | cons t ts ih =>
      obtain ⟨ht, hread⟩ := hts t List.mem_cons_self
      cases us with
      | nil =>
          simp only [spellAll_cons, List.append_assoc] at heq
          exact absurd heq.symm (hnext r' t _ hr' ht)
      | cons u us =>
          simp only [spellAll_cons, List.append_assoc] at heq
          obtain ⟨rfl, htail⟩ := hread u _ _ (hus u List.mem_cons_self) (hstops ts hr)
            (hstops us hr') (List.append_cancel_left heq)
          obtain ⟨rfl, hrest⟩ := ih (fun t ht => hts t (List.mem_cons_of_mem _ ht))
            (fun u hu => hus u (List.mem_cons_of_mem _ hu)) htail
          exact ⟨rfl, hrest⟩

theorem args (hν : Distinguishes ν V cs) {ts us : List Ty}
    (hts : ∀ t ∈ ts, Legible V cs t ∧ Readable ν V cs t .argument)
    (hus : ∀ u ∈ us, Legible V cs u) {r r' : List Char} (hr : Stops .arrowLeft r)
    (hr' : Stops .arrowLeft r')
    (heq : spellAll ν [' '] .argument ts ++ r = spellAll ν [' '] .argument us ++ r') :
    ts = us ∧ r = r' := by
  refine all (Stops .arrowLeft) (fun r hr => hr.of_arrowLeft) (fun x => .blank x) ?_ hts hus hr hr'
    heq
  rintro r a x hr ha rfl
  obtain ⟨rest, hrest⟩ := hr.dash_of_arrowLeft
  exact ha.spell_ne_cons hν (by decide) (by decide) _ _ hrest

theorem items {ts us : List Ty} (hts : ∀ t ∈ ts, Legible V cs t ∧ Readable ν V cs t .top)
    (hus : ∀ u ∈ us, Legible V cs u) {r r' : List Char}
    (heq : spellAll ν [',', ' '] .top ts ++ ')' :: r = spellAll ν [',', ' '] .top us ++ ')' :: r') :
    ts = us ∧ r = r' := by
  have hall := all (fun r => ∃ rest, r = ')' :: rest) ?_ (fun x => .comma _ _) ?_ hts hus ⟨r, rfl⟩
    ⟨r', rfl⟩ heq
  · exact ⟨hall.1, (List.cons.inj hall.2).2⟩
  · rintro r ⟨rest, rfl⟩
    exact .close _ rest
  · rintro r a x ⟨rest, rfl⟩ ha h
    cases h

theorem tuple (hν : Distinguishes ν V cs) (hpos : pos ≠ .top) {items : List Ty}
    (hlen : items.length ≠ 1) (hitems : ∀ t ∈ items, Legible V cs t ∧ Readable ν V cs t .top) :
    Readable ν V cs (.tuple items) pos := by
  intro u r r' hu hr hr' heq
  have hcomma : ∀ (b : Ty) (items : List Ty) (r : List Char),
      Stops .top (spellAll ν [',', ' '] .top (b :: items) ++ ')' :: r) := by
    intro b items r
    rw [spellAll_cons]
    exact .comma _ _
  rcases items with _ | ⟨a, _ | ⟨b, items⟩⟩
  · simp only [spell_tuple_nil, List.cons_append, List.nil_append] at heq
    cases hu.form (ν := ν) hpos with
    | bare hlead hnil => exact absurd heq.symm (hu.bare_ne_open hν hlead hnil _ _)
    | unit => exact ⟨rfl, by simpa [spell_tuple_nil] using heq⟩
    | @tuple a _ _ hitems' =>
        have ha := hitems' a List.mem_cons_self
        simp only [spell_tuple_cons, List.cons_append, List.append_assoc, List.cons.injEq,
          true_and] at heq
        exact absurd heq.symm (ha.spell_ne_cons hν (by decide) (by decide) _ _)
    | parenthesized hu' =>
        simp only [hu', List.cons_append, List.append_assoc, List.cons.injEq, true_and] at heq
        exact absurd heq.symm (hu.spell_ne_cons hν (by decide) (by decide) _ _)
  · exact absurd rfl hlen
  · obtain ⟨ha, hread⟩ := hitems a List.mem_cons_self
    simp only [spell_tuple_cons, List.cons_append, List.append_assoc, List.nil_append] at heq
    cases hu.form (ν := ν) hpos with
    | bare hlead hnil => exact absurd heq.symm (hu.bare_ne_open hν hlead hnil _ _)
    | unit =>
        simp only [spell_tuple_nil, List.cons_append, List.cons.injEq, true_and] at heq
        exact absurd heq (ha.spell_ne_cons hν (by decide) (by decide) _ _)
    | @tuple a' b' items' hitems' =>
        simp only [spell_tuple_cons, List.cons_append, List.append_assoc, List.nil_append,
          List.cons.injEq, true_and] at heq
        obtain ⟨rfl, htail⟩ := hread a' _ _ (hitems' a' List.mem_cons_self) (hcomma b items r)
          (hcomma b' items' r') heq
        obtain ⟨heqs, hrest⟩ := Readable.items (fun t ht => hitems t (List.mem_cons_of_mem a ht))
          (fun u hu => hitems' u (List.mem_cons_of_mem a hu)) htail
        exact ⟨by rw [heqs], hrest⟩
    | parenthesized hu' =>
        simp only [hu', List.cons_append, List.append_assoc, List.nil_append, List.cons.injEq,
          true_and] at heq
        obtain ⟨-, hrest⟩ := hread u _ _ hu (hcomma b items r) (.close _ _) heq
        rw [spellAll_cons] at hrest
        cases hrest

/-- A word with its arguments, as long as these are not put in parentheses together with it. -/
theorem bare (hν : Distinguishes ν V cs) (ht : Legible V cs t) (hpos : pos ≠ .top) {w : String}
    {args : List Ty} (hlead : t.lead? ν = some (w, args)) (hnil : pos = .argument → args = [])
    (hargs : ∀ a ∈ args, Readable ν V cs a .argument) : Readable ν V cs t pos := by
  intro u r r' hu hr hr' heq
  obtain ⟨hw, hleg, hunique⟩ := ht.of_lead hν hlead
  cases hu.form (ν := ν) hpos with
  | unit =>
      rw [spell_tuple_nil] at heq
      exact absurd heq (ht.bare_ne_open hν hlead hnil _ _)
  | tuple _ =>
      rw [spell_tuple_cons] at heq
      exact absurd heq (ht.bare_ne_open hν hlead hnil _ _)
  | parenthesized hu' =>
      rw [hu'] at heq
      exact absurd heq (ht.bare_ne_open hν hlead hnil _ _)
  | @bare _ w' args' hlead' hnil' =>
      obtain ⟨hw', hleg', -⟩ := hu.of_lead hν hlead'
      have hmark : ∀ (args : List Ty) {r : List Char}, Stops pos r →
          ∀ c ∈ (spellAll ν [' '] .argument args ++ r).head?, isMark c = true := by
        intro args r hr
        cases args with
        | nil => exact hr.mark
        | cons a args => simp [spellAll_cons, isMark]
      rw [spell_bare hlead hnil, spell_bare hlead' hnil', List.append_assoc, List.append_assoc]
        at heq
      obtain ⟨hword, htail⟩ := hw.append_inj hw' (hmark args hr) (hmark args' hr') heq
      obtain rfl := String.toList_inj.mp hword
      have hrest : args = args' ∧ r = r' := by
        cases pos with
        | top => exact absurd rfl hpos
        | arrowLeft =>
            exact Readable.args hν (fun a ha => ⟨hleg a ha, hargs a ha⟩) hleg' hr hr' htail
        | argument =>
            obtain rfl := hnil rfl
            obtain rfl := hnil' rfl
            exact ⟨rfl, htail⟩
      obtain ⟨rfl, hrest⟩ := hrest
      exact ⟨hunique u hu hlead', hrest⟩

theorem of_lead (hν : Distinguishes ν V cs) (ht : Legible V cs t) {w : String} {args : List Ty}
    (hlead : t.lead? ν = some (w, args)) (hargs : ∀ a ∈ args, Readable ν V cs a .argument)
    (pos : Position) : Readable ν V cs t pos := by
  -- each position rests on the one before: bare on the left, at the top, in parentheses
  have hleft : Readable ν V cs t .arrowLeft := bare hν ht (by decide) hlead (by simp) hargs
  have htop : Readable ν V cs t .top :=
    hleft.top (by rw [spell_bare hlead (by simp), spell_bare hlead (by simp)])
  cases pos with
  | top => exact htop
  | arrowLeft => exact hleft
  | argument =>
      by_cases hnil : args = []
      · exact bare hν ht (by decide) hlead (fun _ => hnil) hargs
      · refine htop.parenthesized hν ht (by decide) ?_
        rw [spell_of_lead hlead, if_pos ⟨rfl, hnil⟩, spell_bare hlead (by simp)]

end Readable

theorem Legible.readable (hν : Distinguishes ν V cs) (ht : Legible V cs t) (pos : Position) :
    Readable ν V cs t pos := by
  induction ht generalizing pos with
  | var hv => exact .of_lead hν (.var hv) rfl (by simp) pos
  | applied hc harrow htuple hargs ih =>
      exact .of_lead hν (.applied hc harrow htuple hargs) (lead?_con _ harrow htuple)
        (fun a ha => ih a ha .argument) pos
  | fn ha hb iha ihb =>
      have htop := Readable.fn (iha .arrowLeft) (ihb .top)
      by_cases hpos : pos = .top
      · rwa [hpos]
      · exact htop.parenthesized hν (.fn ha hb) hpos (spell_fn _ _ hpos)
  | tuple hlen hitems ih =>
      have hread : ∀ pos, pos ≠ .top → Readable ν V cs (.tuple _) pos := fun pos hpos =>
        .tuple hν hpos hlen fun t ht => ⟨hitems t ht, ih t ht .top⟩
      by_cases hpos : pos = .top
      · subst hpos
        refine (hread .arrowLeft (by decide)).top ?_
        rcases (Legible.tuple hlen hitems).spell_top (ν := ν) with ⟨a, b, h, -⟩ | h
        · cases h
        · exact h
      · exact hread pos hpos

/-- Equal texts are texts of equal terms. -/
theorem Legible.eq_of_text_eq (hν : Distinguishes ν V cs) (ht : Legible V cs t)
    (hu : Legible V cs u) (h : t.text ν .top = u.text ν .top) : t = u := by
  have heq : t.spell ν .top ++ [] = u.spell ν .top ++ [] := by rw [spell, h, spell]
  exact (ht.readable hν .top u [] [] hu (.finish _) (.finish _) heq).1

end Ty

/-! ## Names that can be told apart -/

theorem isMark_eq_false {c : Char} (h : c.isAlphanum = true) : isMark c = false := by
  rw [isMark, decide_eq_false_iff_not]
  intro hmem
  have hmarks : [' ', '(', ')', ',', '-'].all (!·.isAlphanum) = true := by decide
  have hmark := List.all_eq_true.mp hmarks c hmem
  rw [h] at hmark
  cases hmark

theorem isWord_of_alphanum {w : List Char} (hne : w ≠ []) (h : ∀ c ∈ w, c.isAlphanum = true) :
    IsWord w :=
  ⟨hne, fun c hc => isMark_eq_false (h c hc)⟩

/-- The name is a word that does not start like the name of a variable. -/
def TypeCon.Proper (c : TypeCon) : Prop :=
  IsWord c.name.toList ∧ ∀ a ∈ c.name.toList.head?, a.isLower = false

/-- Letters and digits after an upper-case letter are such a name. -/
theorem TypeCon.proper_of_alphanum {c : TypeCon} (a : Char) (rest : List Char)
    (hname : c.name.toList = a :: rest) (ha : a.isUpper = true)
    (hrest : ∀ b ∈ rest, b.isAlphanum = true) : c.Proper := by
  rw [Proper, hname]
  refine ⟨isWord_of_alphanum (List.cons_ne_nil _ _) ?_, ?_⟩
  · intro b hb
    rcases List.mem_cons.mp hb with rfl | hb
    · show (b.isUpper || b.isLower || b.isDigit) = true
      simp [ha]
    · exact hrest b hb
  · intro b hb
    obtain rfl := Option.some.inj hb
    have hupper := (of_decide_eq_true ha).2
    refine Bool.and_eq_false_iff.mpr (.inl (decide_eq_false fun hlower => ?_))
    exact absurd (UInt32.le_trans hlower hupper) (by decide)

theorem isWord_letterName (i : Nat) : IsWord (letterName i).toList := by
  obtain ⟨a, ds, heq, ha, hds⟩ := letterName_shape i
  rw [heq]
  refine isWord_of_alphanum (List.cons_ne_nil _ _) fun c hc => ?_
  rcases List.mem_cons.mp hc with rfl | hc
  · show (c.isUpper || c.isLower || c.isDigit) = true
    simp [ha]
  · show (c.isUpper || c.isLower || c.isDigit) = true
    simp [hds c hc]

theorem TypeCon.Proper.ne_letterName {c : TypeCon} (hc : c.Proper) (i : Nat) :
    letterName i ≠ c.name := by
  intro h
  obtain ⟨a, ds, heq, ha, -⟩ := letterName_shape i
  have hlower := hc.2 a (by rw [← h, heq]; rfl)
  cases ha.symm.trans hlower

/-- Variables are named from the sequence, so that their names are not taken for those of
constructors. -/
theorem distinguishes_of_letterName {ν : Var → String} {V : Var → Prop} {cs : List TypeCon}
    (hname : ∀ v, V v → ∃ i, ν v = letterName i)
    (hinj : ∀ v w, V v → V w → ν v = ν w → v = w)
    (hproper : ∀ c ∈ cs, c ≠ .arrow → c ≠ .tuple → c.Proper)
    (hdistinct : ∀ c ∈ cs, ∀ d ∈ cs, c.name = d.name → c = d) : Distinguishes ν V cs where
  var_word hv := by
    obtain ⟨i, hi⟩ := hname _ hv
    rw [hi]
    exact isWord_letterName i
  var_inj hv hw heq := hinj _ _ hv hw heq
  con_word hc harrow htuple := (hproper _ hc harrow htuple).1
  con_inj hc hd heq := hdistinct _ hc _ hd heq
  apart hv hc harrow htuple := by
    obtain ⟨i, hi⟩ := hname _ hv
    rw [hi]
    exact (hproper _ hc harrow htuple).ne_letterName i

/-! ## Displayed types -/

/-- Two types are displayed one after the other. They are over variables of one supply and over
constructors whose names are words and are all different, except that `->` and tuples have their
own layout; `->` has two arguments and a tuple not just one item. Then the texts are equal if and
only if the types are. -/
theorem display_unambiguous {s : Store} (harises : s.Arises) (hs : s.WellFormed) {p : SupplyId}
    {cs : List TypeCon} (hproper : ∀ c ∈ cs, c ≠ .arrow → c ≠ .tuple → c.Proper)
    (hdistinct : ∀ c ∈ cs, ∀ d ∈ cs, c.name = d.name → c = d) {t u : Ty}
    (ht : (s.resolve t).Legible (s.supply? · = some p) cs)
    (hu : (s.resolve u).Legible (s.supply? · = some p) cs) :
    let first := t.display s
    let second := u.display first.2
    first.1 = second.1 ↔ (t.equal u second.2).1 = true := by
  intro first second
  obtain ⟨hq₁, -, htext₁⟩ := Store.spells_display hs t s (.refl hs)
  obtain ⟨hq₂, hret₂, htext₂⟩ := Store.spells_display hs u first.2 hq₁
  have hequal : (t.equal u second.2).1 = true ↔ s.resolve t = s.resolve u := by
    rw [((Store.reads_equal hs t u) second.2 hq₂).1, decide_eq_true_eq]
  rw [hequal]
  constructor
  · intro htext
    -- the texts are the same with the names of any store to come
    have hsteps : Store.Steps p s second.2 :=
      (Stepwise.display t s).trans (Stepwise.display u first.2)
    obtain ⟨s', hret, hname, hinj⟩ := harises.exists_names hsteps
    have hν := distinguishes_of_letterName hname hinj hproper hdistinct
    refine ht.eq_of_text_eq hν hu ?_
    calc (s.resolve t).text s'.nameOf .top
      _ = first.1 := (htext₁ s' (hret₂.trans hret)).symm
      _ = second.1 := htext
      _ = (s.resolve u).text s'.nameOf .top := htext₂ s' hret
  · intro heq
    calc first.1
      _ = (s.resolve t).text second.2.nameOf .top := htext₁ second.2 hret₂
      _ = (s.resolve u).text second.2.nameOf .top := by rw [heq]
      _ = second.1 := (htext₂ second.2 (.refl _)).symm

/-- `#0` stands for `List #1`. Two variables get names while the first type is displayed, and the
second one shows the same names. -/
theorem display_unambiguous_sample :
    let s := Store.sample
    let t := Ty.fn (.var ⟨0⟩) (.tuple [.var ⟨2⟩, .var ⟨1⟩])
    let u := Ty.fn (.list (.var ⟨1⟩)) (.tuple [.var ⟨2⟩, .var ⟨1⟩])
    let first := t.display s
    let second := u.display first.2
    s.Arises ∧ s.WellFormed ∧ TypeCon.list.Proper
      ∧ (s.resolve t).Legible (s.supply? · = some 0) [.list]
      ∧ (s.resolve u).Legible (s.supply? · = some 0) [.list]
      ∧ first.1 = "List a -> (b, a)" ∧ second.1 = "List a -> (b, a)"
      ∧ (t.equal u second.2).1 = true := by
  intro s t u first second
  have harises : s.Arises := by
    have h₀ : Store.Arises (SupplyId.create {}).2 := .create .empty
    have h₁ := h₀.step (p := 0) (by decide) .fresh
    have h₂ := h₁.step (p := 0) (by decide) .fresh
    have h₃ := h₂.step (p := 0) (by decide) .fresh
    exact h₃.step (p := 0) (by decide) (.link ⟨0⟩ (.list (.var ⟨1⟩)))
  have hproper : TypeCon.list.Proper :=
    TypeCon.proper_of_alphanum 'L' ['i', 's', 't'] (by decide) (by decide)
      (List.all_eq_true.mp (by decide))
  have hresolve : s.resolve t = u ∧ s.resolve u = u := by decide +kernel
  have hlegible : u.Legible (s.supply? · = some 0) [.list] := by
    refine .fn (.applied (by simp) (by decide) (by decide) fun a ha => ?_)
      (.tuple (by decide) fun a ha => ?_)
    · obtain rfl := List.mem_singleton.mp ha
      exact .var rfl
    · rcases List.mem_pair.mp ha with rfl | rfl
      · exact .var rfl
      · exact .var rfl
  have ht : (s.resolve t).Legible (s.supply? · = some 0) [.list] := hresolve.1.symm ▸ hlegible
  have hu : (s.resolve u).Legible (s.supply? · = some 0) [.list] := hresolve.2.symm ▸ hlegible
  have htexts : first.1 = "List a -> (b, a)" ∧ second.1 = "List a -> (b, a)" := by decide +kernel
  have hunambiguous := display_unambiguous harises Store.sample_wellFormed
    (by simpa using hproper) (by simp) ht hu
  exact ⟨harises, Store.sample_wellFormed, hproper, ht, hu, htexts.1, htexts.2,
    hunambiguous.mp (htexts.1.trans htexts.2.symm)⟩

end Overload
