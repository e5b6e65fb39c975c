import Overload.Proofs.Display
import Overload.Proofs.Signatures

/-!
# Questions about terms

Every question about a term follows links, and following links rewrites them. Finding the
representative of a term links each variable on its chain straight to the end and touches no other
link (`link?_prune`); done again it finds all of them there and changes nothing (`prune_prune`).

So a question changes the store but not what the store means: the same variables are bound, and
every term resolves as before. An answer is `Steady` if it comes out the same after any number of
other questions. It is so for every walk that goes by representatives, as these stay the ends of
their chains (`reads_endsAt`). Texts are the exception, since they show names: there it is the
resolved term that stays, and the names are those handed out by then (`Query.answer`).
-/

namespace Overload

namespace Store

variable {s s' : Store} {v w : Var} {t r : Ty}

/-! ## Chains that are shortened -/

/-- The variable is bound, and on the chain of links that starts at the term. -/
inductive OnChain (s : Store) : Ty → Var → Prop
  | here {v : Var} {t : Ty} : s.link? v = some t → OnChain s (.var v) v
  | link {v w : Var} {t : Ty} : s.link? v = some t → OnChain s t w → OnChain s (.var v) w

theorem onChain_iff_of_link (hl : s.link? v = some t) :
    s.OnChain (.var v) w ↔ w = v ∨ s.OnChain t w := by
  constructor
  · intro h
    cases h with
    | here => exact .inl rfl
    | link hl' h =>
        obtain rfl := Option.some.inj (hl.symm.trans hl')
        exact .inr h
  · rintro (rfl | h)
    · exact .here hl
    · exact .link hl h

theorem Representative.not_onChain (hr : s.Representative r) : ¬s.OnChain r w := by
  intro h
  cases h with
  | here hl => exact Option.some_ne_none _ (hl.symm.trans hr)
  | link hl => exact Option.some_ne_none _ (hl.symm.trans hr)

/-- A link that is set to what it is. -/
theorem setLink_of_link? (h : s.link? v = some t) : s.setLink v t = s := by
  obtain ⟨cell, hcell, hlink⟩ := Option.bind_eq_some_iff.mp h
  have hcells : (s.cells.modify v.index fun c => { c with link := some t }) = s.cells := by
    apply Array.ext_getElem?
    intro i
    rw [Array.getElem?_modify]
    split
    · next hi =>
        subst hi
        rw [hcell, Option.map_some, ← hlink]
    · rfl
  rw [setLink, hcells]

theorem prune_of_representative (n : Nat) (hr : s.Representative r) : s.prune n r = (r, s) := by
  cases r with
  | con c args => cases n <;> rfl
  | var v =>
      cases n with
      | zero => rfl
      | succ n =>
          have hv : s.link? v = none := hr
          rw [prune, hv]

/-- The induction is on the number of links left, as for `prune_spec`. -/
theorem link?_prune (hs : s.WellFormed) (n : Nat) (hn : ∀ v, t = .var v → s.rank v ≤ n) (w : Var) :
    (s.OnChain t w → (s.prune n t).2.link? w = some (s.prune n t).1)
      ∧ (¬s.OnChain t w → (s.prune n t).2.link? w = s.link? w) := by
  have hend : ∀ {n r}, s.Representative r →
      (s.OnChain r w → (s.prune n r).2.link? w = some (s.prune n r).1)
        ∧ (¬s.OnChain r w → (s.prune n r).2.link? w = s.link? w) := by
    intro n r hr
    rw [prune_of_representative n hr]
    exact ⟨fun h => absurd h hr.not_onChain, fun _ => rfl⟩
  induction n generalizing t with
  | zero =>
      cases t with
      | con c args => exact hend trivial
      | var v =>
          cases hl : s.link? v with
          | none => exact hend hl
          | some t =>
              have hpos := rank_pos hl
              have hzero := hn v rfl
              omega
  | succ n ih =>
      cases t with
      | con c args => exact hend trivial
      | var v =>
          cases hl : s.link? v with
          | none => exact hend hl
          | some t =>
              have hrank : ∀ w, t = .var w → s.rank w ≤ n := by
                rintro w rfl
                have hlt := rank_lt hs.acyclic ⟨_, hl, List.mem_singleton.mpr rfl⟩
                have hle := hn v rfl
                omega
              obtain ⟨hon, hoff⟩ := ih hrank
              obtain ⟨-, -, hq⟩ := prune_spec hs n hrank
              have hv : v.index < (s.prune n t).2.size := hq.size_eq ▸ lt_size_of_link? hl
              rw [prune, hl, onChain_iff_of_link hl]
              by_cases hw : w = v
              · subst hw
                exact ⟨fun _ => link?_setLink_self _ hv, fun h => absurd (.inl rfl) h⟩
              · dsimp only
                rw [link?_setLink_of_ne _ hw]
                exact ⟨fun h => hon (h.resolve_left hw), fun h => hoff fun h' => h (.inr h')⟩

/-- The second time the chain is one link long, and is set to what it is. -/
theorem prune_prune (hs : s.WellFormed) (t : Ty) : t.prune (t.prune s).2 = t.prune s := by
  have hrank : ∀ v, t = .var v → s.rank v ≤ s.size := fun v _ => s.rank_le_size v
  obtain ⟨-, hr, hq⟩ := prune_spec hs s.size hrank
  have hend : s.Representative t → t.prune (t.prune s).2 = t.prune s := by
    intro ht
    rw [show t.prune s = (t, s) from prune_of_representative s.size ht]
    exact prune_of_representative s.size ht
  cases t with
  | con c args => exact hend trivial
  | var v =>
      cases hl : s.link? v with
      | none => exact hend hl
      | some t =>
          have hlink := (link?_prune hs s.size hrank v).1 (.here hl)
          obtain ⟨n, hn⟩ : ∃ n, (s.prune s.size (.var v)).2.size = n + 1 := by
            exact Nat.exists_eq_succ_of_ne_zero (Nat.ne_zero_of_lt (lt_size_of_link? hlink))
          have hrep := hq.toAlike.representative_iff.mpr hr.representative
          show Store.prune (s.prune s.size (.var v)).2 (s.prune s.size (.var v)).2.size (.var v)
            = s.prune s.size (.var v)
          rw [hn, prune, hlink]
          dsimp only
          rw [prune_of_representative n hrep]
          dsimp only
          rw [setLink_of_link? hlink]

/-! ## Answers that stay the same -/

/-- However much is read before, the answer is the same. -/
def Steady (s : Store) (x : StoreM α) : Prop := s.Reads x (· = (x s).1)

namespace Steady

variable {α β : Type}

theorem of_reads {x : StoreM α} {P : α → Prop} (hs : s.WellFormed) (hx : s.Reads x P)
    (hunique : ∀ a b, P a → P b → a = b) : s.Steady x :=
  hx.mono fun a ha => hunique a _ ha (hx.here hs).1

theorem of_reads_eq {x : StoreM α} {a : α} (hs : s.WellFormed) (hx : s.Reads x (· = a)) :
    s.Steady x := of_reads hs hx fun _ _ hb hc => hb.trans hc.symm

theorem pure (a : α) : s.Steady (pure a) := Reads.pure rfl

/-- The second part starts from a store that the first one has read. -/
theorem bind {x : StoreM α} {f : α → StoreM β} (hs : s.WellFormed) (hx : s.Steady x)
    (hf : ∀ a, s.Steady (f a)) : s.Steady (x >>= f) := by
  refine Reads.bind hx fun a ha => (hf a).mono fun b hb => ?_
  subst ha hb
  exact (hf (x s).1 (x s).2 (hx.here hs).2).1.symm

/-- A walk is given another bound in another store. -/
theorem bounded {ts : List Ty} {walk : Nat → StoreM α} (hs : s.WellFormed)
    (hwalk : ∀ n, s.Steady (walk n))
    (hdepth : ∀ n m, (∀ t ∈ ts, (s.resolve t).height < n) → (∀ t ∈ ts, (s.resolve t).height < m) →
      walk n s = walk m s) : s.Steady (Ty.bounded ts walk) := by
  refine Reads.bounded hs fun n hn => (hwalk n).mono fun a ha => ?_
  rw [ha, hdepth n (s.budget ts) hn fun t ht => s.height_resolve_lt_budget ht]
  rfl

end Steady

section steady

variable (hs : s.WellFormed)
include hs

/-- The chain of a term has the same end in every store that was read. -/
theorem reads_endsAt (t : Ty) : s.Reads t.prune (s.EndsAt t) := by
  intro s₁ h₁
  obtain ⟨hend, -, -⟩ := prune_spec hs s.size (t := t) fun v _ => s.rank_le_size v
  obtain ⟨hend₁, -, hq⟩ := prune_spec h₁.wellFormed s₁.size (t := t) fun v _ => s₁.rank_le_size v
  have hrep := h₁.toAlike.representative_iff.mpr hend.representative
  have heq := (h₁.relinks.endsAt hend hrep).unique hend₁
  exact ⟨heq ▸ hend, h₁.trans hq⟩

theorem steady_prune (t : Ty) : s.Steady t.prune :=
  .of_reads hs (reads_endsAt hs t) fun _ _ h h' => h.unique h'

theorem steady_asFunction (t : Ty) : s.Steady t.asFunction := by
  refine (steady_prune hs t).bind hs fun r => ?_
  split
  · exact .pure _
  · exact .pure _

theorem steady_splitWithin (n : Nat) (t : Ty) : s.Steady (Signature.splitWithin n t) := by
  induction n generalizing t with
  | zero => exact .pure _
  | succ n ih =>
      rw [Signature.splitWithin]
      refine (steady_asFunction hs t).bind hs fun o => ?_
      cases o with
      | none => exact .pure _
      | some parts =>
          refine (steady_prune hs parts.2).bind hs fun r => ?_
          exact (ih r).bind hs fun _ => .pure _

theorem steady_ofTy (t : Ty) : s.Steady (Signature.ofTy t) := by
  refine (steady_prune hs t).bind hs fun r => ?_
  refine Steady.bind hs (.bounded hs (fun n => steady_splitWithin hs n r) fun n m hn hm => ?_)
    fun _ => .pure _
  -- both are what the unbounded loop comes to
  have hends := fun k (hk : ∀ t ∈ [r], (s.resolve t).height < k) =>
    Unrolled.endsAs_splitWithin hs k (hk r (List.mem_singleton.mpr rfl)) s (.refl hs)
  exact (hends n hn).1.unique (hends m hm).1

end steady

end Store

/-! ## Questions one after the other -/

/-- What can be asked about terms. -/
inductive Query where
  | prune (t : Ty)
  | equal (t u : Ty)
  | asFunction (t : Ty)
  | freeVars (t : Ty)
  | occursIn (v : Var) (t : Ty)
  | occursInAny (v : Var) (ts : List Ty)
  | isGeneric (v : Var) (fixed : List Var)
  | signature (t : Ty)
  | display (t : Ty)

namespace Query

abbrev Answer : Query → Type
  | .prune _ => Ty
  | .equal .. | .occursIn .. | .occursInAny .. | .isGeneric .. => Bool
  | .asFunction _ => Option (Ty × Ty)
  | .freeVars _ => List Var
  | .signature _ => Signature
  | .display _ => String

def run : (q : Query) → StoreM q.Answer
  | .prune t => t.prune
  | .equal t u => t.equal u
  | .asFunction t => t.asFunction
  | .freeVars t => t.freeVars
  | .occursIn v t => v.occursIn t
  | .occursInAny v ts => v.occursInAny ts
  | .isGeneric v fixed => v.isGeneric fixed
  | .signature t => Signature.ofTy t
  | .display t => t.display

/-- The answer in `s`. In a text the variables have the given names. -/
def answer (s : Store) (ν : Var → String) : (q : Query) → q.Answer
  | .display t => (s.resolve t).text ν .top
  | q => (q.run s).1

/-- The store after some questions, asked in turn. -/
def after (s : Store) (qs : List Query) : Store := qs.foldl (fun s q => (q.run s).2) s

theorem run_spec {s s₁ : Store} (hs : s.WellFormed) (h₁ : s.Quiet s₁) (q : Query) :
    (q.run s₁).1 = q.answer s (q.run s₁).2.nameOf ∧ s.Quiet (q.run s₁).2 := by
  cases q with
  | prune t => exact Store.steady_prune hs t s₁ h₁
  | equal t u => exact Store.Steady.of_reads_eq hs (Store.reads_equal hs t u) s₁ h₁
  | asFunction t => exact Store.steady_asFunction hs t s₁ h₁
  | freeVars t => exact Store.Steady.of_reads_eq hs (Store.reads_freeVars hs t) s₁ h₁
  | occursIn v t => exact Store.Steady.of_reads_eq hs (Store.reads_occursIn hs v t) s₁ h₁
  | occursInAny v ts =>
      have hany : s.Reads (v.occursInAny ts) _ :=
        Store.Reads.anyM fun t _ => Store.reads_occursIn hs v t
      exact Store.Steady.of_reads_eq hs hany s₁ h₁
  | isGeneric v fixed =>
      exact Store.Steady.of_reads_eq hs (Store.reads_isGeneric hs v fixed) s₁ h₁
  | signature t => exact Store.steady_ofTy hs t s₁ h₁
  | display t =>
      obtain ⟨hq, -, htext⟩ := Store.spells_display hs t s₁ h₁
      exact ⟨htext _ (.refl _), hq⟩

theorem quiet_after {s : Store} (hs : s.WellFormed) (qs : List Query) : s.Quiet (after s qs) := by
  induction qs using List.reverseRecOn with
  | nil => exact .refl hs
  | append_singleton qs q ih =>
      rw [after, List.foldl_append]
      exact (run_spec hs ih q).2

end Query

/-- The representative of a term is an applied constructor or an unbound variable. Finding it links
the variables on the chain of the term to it, leaves all other links alone, and is nothing new the
second time. No question changes which variables are bound or what a term resolves to, and none is
answered differently after others, except that a text shows the names handed out by then. -/
theorem queries_keep_meaning {s : Store} (hs : s.WellFormed) :
    (∀ t : Ty,
        s.Representative (t.prune s).1 ∧ s.EndsAt t (t.prune s).1
          ∧ (∀ v, s.OnChain t v → (t.prune s).2.link? v = some (t.prune s).1)
          ∧ (∀ v, ¬s.OnChain t v → (t.prune s).2.link? v = s.link? v)
          ∧ t.prune (t.prune s).2 = t.prune s)
      ∧ (∀ q : Query, (q.run s).2.WellFormed ∧ (∀ v, (q.run s).2.isBound v = s.isBound v)
          ∧ ∀ t, (q.run s).2.resolve t = s.resolve t)
      ∧ ∀ (earlier : List Query) (q : Query),
          (q.run (Query.after s earlier)).1
            = q.answer s (q.run (Query.after s earlier)).2.nameOf := by
  refine ⟨fun t => ?_, fun q => ?_, fun earlier q => ?_⟩
  · have hrank : ∀ v, t = .var v → s.rank v ≤ s.size := fun v _ => s.rank_le_size v
    have hlinks := Store.link?_prune hs s.size hrank
    have hend := ((Store.reads_endsAt hs t).here hs).1
    exact ⟨hend.representative, hend, fun v => (hlinks v).1, fun v => (hlinks v).2,
      Store.prune_prune hs t⟩
  · have hq := (q.run_spec hs (.refl hs)).2
    refine ⟨hq.wellFormed, fun v => ?_, hq.toAlike.resolve_eq hs⟩
    rw [Store.isBound, Store.isBound, Bool.eq_iff_iff, Option.isSome_iff_ne_none,
      Option.isSome_iff_ne_none, Ne, Ne, hq.bound_iff]
  · exact (q.run_spec hs (Query.quiet_after hs earlier)).1

/-- `#2` is linked to `#0`, and `#0` to `List #1`. Of the three questions that come first one names
a variable, and one shortens the chain. -/
theorem queries_keep_meaning_chain :
    let s := Store.sample.setLink ⟨2⟩ (.var ⟨0⟩)
    let t := Ty.var ⟨2⟩
    let earlier : List Query := [.occursIn ⟨1⟩ t, .display (.fn (.var ⟨1⟩) t), .prune t]
    s.WellFormed ∧ s.OnChain t ⟨0⟩ ∧ ¬s.OnChain t ⟨1⟩
      ∧ s.link? ⟨2⟩ = some (.var ⟨0⟩) ∧ (t.prune s).2.link? ⟨2⟩ = some (.list (.var ⟨1⟩))
      ∧ (t.prune s).2.link? ⟨1⟩ = none
      ∧ (Query.run (.prune t) (Query.after s earlier)).1 = .list (.var ⟨1⟩)
      ∧ (Query.run (.display t) (Query.after s earlier)).1 = "List a" := by
  intro s t earlier
  have hs : s.WellFormed := (Store.extends_bind Store.sample_wellFormed rfl (by decide)
    (Store.covers_var.mpr (by decide)) (by decide +kernel)).wellFormed
  have hzero : s.OnChain t ⟨0⟩ := .link (t := .var ⟨0⟩) rfl (.here (t := .list (.var ⟨1⟩)) rfl)
  have hone : ¬s.OnChain t ⟨1⟩ := by
    intro h
    rw [Store.onChain_iff_of_link (t := .var ⟨0⟩) rfl] at h
    rw [Store.onChain_iff_of_link (t := .list (.var ⟨1⟩)) rfl] at h
    rcases h with h | h | h
    · cases h
    · cases h
    · exact Store.Representative.not_onChain (r := .list (.var ⟨1⟩)) trivial h
  obtain ⟨hprune, -, hanswer⟩ := queries_keep_meaning hs
  obtain ⟨-, -, hon, hoff, -⟩ := hprune t
  have hrep : (t.prune s).1 = .list (.var ⟨1⟩) := by decide +kernel
  refine ⟨hs, hzero, hone, rfl, ?_, hoff ⟨1⟩ hone, ?_, ?_⟩
  · rw [hon ⟨2⟩ (.here (t := .var ⟨0⟩) rfl), hrep]
  · exact (hanswer earlier (.prune t)).trans hrep
  · exact (hanswer earlier (.display t)).trans (by decide +kernel)

end Overload
