import Autodiff.Proofs.Likeness
import Autodiff.Proofs.Settlement

namespace Autodiff

variable {F : Type}

structure Staged.Alike (a b : Staged F) : Prop where
  identifiers_eq : a.identifiers.items = b.identifiers.items
  values_eq : a.values.items = b.values.items
  gradients_eq : a.gradients.items = b.gradients.items
  oldValues_eq : a.oldValues.items = b.oldValues.items

inductive Note.Alike : Note F → Note F → Prop
  | refl (note) : Alike note note
  | staged {a b} (h : a.Alike b) : Alike (.staged a) (.staged b)
  | list {notes notes'} (h : List.Forall₂ Alike notes notes') : Alike (.list notes) (.list notes')

theorem Action.Detached.eq_of_alike {a : Action F} (ha : a.Detached) {x x' : a.Result}
    (h : a.Alike x x') : x = x' := by
  cases a with
  | lendValues => exact ha.elim
  | lendIdentifiers => exact ha.elim
  | _ => exact h

namespace Program

variable {α β γ δ : Type} {R : α → β → Prop} {S : γ → δ → Prop} {p : Program F α} {q : Program F β}

/-- Programs that take the same actions and report the same, whatever room their buffers have. -/
inductive Mirrors (R : α → β → Prop) : Program F α → Program F β → Prop
  | pure {x y} (h : R x y) : Mirrors R (.pure x) (.pure y)
  | fail (fault) : Mirrors R (.fail fault) (.fail fault)
  | perform (a : Action F) {next next'}
      (h : ∀ x x', a.Alike x x' → Mirrors R (next x) (next' x')) :
      Mirrors R (.perform a next) (.perform a next')
  | returnIdentifiers (b b') {next next'} (h : Mirrors R (next ()) (next' ())) :
      Mirrors R (.perform (.returnIdentifiers b) next) (.perform (.returnIdentifiers b') next')
  | returnValues (b b') {next next'} (h : Mirrors R (next ()) (next' ())) :
      Mirrors R (.perform (.returnValues b) next) (.perform (.returnValues b') next')
  | report {note note'} (hnote : note.Alike note') {next next'} (h : Mirrors R (next ()) (next' ())) :
      Mirrors R (.perform (.report note) next) (.perform (.report note') next')

theorem Mirrors.alike (h : p.Mirrors R q) : p.Alike R q := by
  induction h with
  | pure hxy => exact .pure hxy
  | fail fault => exact .fail fault
  | perform a _ ih => exact .perform a ih
  | returnIdentifiers b b' _ ih => exact .returnIdentifiers b b' ih
  | returnValues b b' _ ih => exact .returnValues b b' ih
  | report _ _ ih => exact .report _ _ ih

theorem Mirrors.bind {f : α → Program F γ} {g : β → Program F δ} (h : p.Mirrors R q)
    (hf : ∀ x y, R x y → (f x).Mirrors S (g y)) : (p >>= f).Mirrors S (q >>= g) := by
  change (p.bind f).Mirrors S (q.bind g)
  induction h with
  | pure hxy => exact hf _ _ hxy
  | fail fault => exact .fail fault
  | perform a _ ih => exact .perform a fun x x' hx => ih x x' hx
  | returnIdentifiers b b' _ ih => exact .returnIdentifiers b b' ih
  | returnValues b b' _ ih => exact .returnValues b b' ih
  | report hnote _ ih => exact .report hnote ih

theorem Mirrors.mono {R' : α → β → Prop} (h : p.Mirrors R q) (hR : ∀ x y, R x y → R' x y) :
    p.Mirrors R' q := by
  induction h with
  | pure hxy => exact .pure (hR _ _ hxy)
  | fail fault => exact .fail fault
  | perform a _ ih => exact .perform a ih
  | returnIdentifiers b b' _ ih => exact .returnIdentifiers b b' ih
  | returnValues b b' _ ih => exact .returnValues b b' ih
  | report hnote _ ih => exact .report hnote ih

theorem mirrors_act (a : Action F) : (act a).Mirrors a.Alike (act a) :=
  .perform a fun _ _ h => .pure h

inductive Parallel (R : α → β → Prop) : Program F α → Program F β → Prop
  | pure {x y} (h : R x y) : Parallel R (.pure x) (.pure y)
  | fail {fault} (h : ¬ fault.OfPool) : Parallel R (.fail fault) (.fail fault)
  | perform {a : Action F} (ha : a.Detached) {next next'} (h : ∀ x, Parallel R (next x) (next' x)) :
      Parallel R (.perform a next) (.perform a next')
  | report {note note'} (hnote : note.Alike note') {next next'} (h : Parallel R (next ()) (next' ())) :
      Parallel R (.perform (.report note) next) (.perform (.report note') next')

theorem Parallel.bind {f : α → Program F γ} {g : β → Program F δ} (h : p.Parallel R q)
    (hf : ∀ x y, R x y → (f x).Parallel S (g y)) : (p >>= f).Parallel S (q >>= g) := by
  change (p.bind f).Parallel S (q.bind g)
  induction h with
  | pure hxy => exact hf _ _ hxy
  | fail h => exact .fail h
  | perform ha _ ih => exact .perform ha ih
  | report hnote _ ih => exact .report hnote ih

theorem Parallel.mono {R' : α → β → Prop} (h : p.Parallel R q) (hR : ∀ x y, R x y → R' x y) :
    p.Parallel R' q := by
  induction h with
  | pure hxy => exact .pure (hR _ _ hxy)
  | fail h => exact .fail h
  | perform ha _ ih => exact .perform ha ih
  | report hnote _ ih => exact .report hnote ih

theorem Parallel.detached (h : p.Parallel R q) : p.Detached fun x => ∃ y, R x y := by
  induction h with
  | @pure x y hxy => exact ⟨y, hxy⟩
  | fail h => exact h
  | perform ha _ ih => exact ⟨ha, ih⟩
  | report _ _ ih => exact ⟨trivial, fun _ => ih⟩

theorem Parallel.mirrors (h : p.Parallel R q) : p.Mirrors R q := by
  induction h with
  | pure hxy => exact .pure hxy
  | fail => exact .fail _
  | perform ha _ ih =>
    refine .perform _ fun x x' hx => ?_
    rw [← ha.eq_of_alike hx]
    exact ih x
  | report hnote _ ih => exact .report hnote ih

theorem parallel_act {a : Action F} (ha : a.Detached) : (act a).Parallel Eq (act a) :=
  .perform ha fun _ => .pure rfl

theorem Detached.parallel {Q : α → Prop} {p : Program F α} (h : p.Detached Q) :
    p.Parallel (fun x y => y = x ∧ Q x) p := by
  induction p with
  | pure x => exact .pure ⟨rfl, h⟩
  | fail fault => exact .fail h
  | perform a next ih => exact .perform h.1 fun x => ih x (h.2 x)

theorem Detached.mirrors {Q : α → Prop} {p : Program F α} (h : p.Detached Q) :
    p.Mirrors (fun x y => y = x ∧ Q x) p := h.parallel.mirrors

theorem mirrors_lendStaged (k l m n : Nat) :
    (lendStaged (F := F) k l m n).Mirrors Staged.Alike (lendStaged k l m n) := by
  refine (mirrors_act (.lendIdentifiers k)).bind fun _ _ h₁ => ?_
  refine (mirrors_act (.lendValues l)).bind fun _ _ h₂ => ?_
  refine (mirrors_act (.lendValues m)).bind fun _ _ h₃ => ?_
  refine (mirrors_act (.lendValues n)).bind fun _ _ h₄ => ?_
  exact .pure ⟨h₁, h₂, h₃, h₄⟩

theorem mirrors_reclaimAll {as bs : List (Staged F)} (h : bs.length = as.length) :
    (reclaimAll as).Mirrors Eq (reclaimAll bs) := by
  induction as generalizing bs with
  | nil =>
    obtain rfl := List.length_eq_zero_iff.mp h
    exact .pure rfl
  | cons a as ih =>
    cases bs with
    | nil => cases h
    | cons b bs =>
      have hone : (reclaim a).Mirrors Eq (reclaim b) :=
        .returnIdentifiers _ _ <| .returnValues _ _ <| .returnValues _ _ <| .returnValues _ _ <|
          .pure rfl
      exact hone.bind fun _ _ _ => ih (Nat.succ_injective h)

end Program

namespace Staged.Alike

variable {a b : Staged F}

theorem refl (a : Staged F) : a.Alike a := ⟨rfl, rfl, rfl, rfl⟩

theorem withValues (h : a.Alike b) (xs : List F) : (a.withValues xs).Alike (b.withValues xs) :=
  { h with values_eq := rfl }

theorem withGradients (h : a.Alike b) (gs : List F) :
    (a.withGradients gs).Alike (b.withGradients gs) := { h with gradients_eq := rfl }

theorem fetchInput (h : a.Alike b) (traits : Traits) (use : InputRole) :
    (Schema.fetchInput traits use a).Mirrors Staged.Alike (Schema.fetchInput traits use b) := by
  rw [Schema.fetchInput, Schema.fetchInput]
  cases use.origin traits with
  | primalVector =>
    dsimp only
    rw [h.identifiers_eq, h.values_eq]
    refine (Schema.detached_fetch _ _).mirrors.bind fun xs xs' hxs => .pure ?_
    rw [hxs.1]
    exact h.withValues xs
  | _ => exact .pure h

end Staged.Alike

namespace Schema

def Alike : (s : Schema F) → s.Record → s.Record → Prop
  | done, _, _ => True
  | scalar _ next, r, r' => ∃ rest, r' = ⟨r.1, rest⟩ ∧ (next r.1).Alike r.2 rest
  | input _ _ next, r, r' => r.1.Alike r'.1 ∧ next.Alike r.2 r'.2
  | output _ next, r, r' => r.1.Alike r'.1 ∧ next.Alike r.2 r'.2

namespace Alike

variable {s : Schema F} {r r' : s.Record}

theorem refl (r : s.Record) : s.Alike r r := by
  induction s with
  | done => trivial
  | scalar ty next ih => exact ⟨r.2, rfl, ih r.1 r.2⟩
  | input n use next ih => exact ⟨.refl r.1, ih r.2⟩
  | output n next ih => exact ⟨.refl r.1, ih r.2⟩

theorem sameScalars (h : s.Alike r r') : s.SameScalars r r' := by
  induction s with
  | done => trivial
  | scalar ty next ih =>
    obtain ⟨rest, rfl, h⟩ := h
    exact ⟨rest, rfl, ih _ h⟩
  | input n use next ih => exact ih h.2
  | output n next ih => exact ih h.2

theorem rollBack (h : s.Alike r r') : (s.rollBack r).Mirrors Eq (s.rollBack r') := by
  induction s with
  | done => exact .pure rfl
  | scalar ty next ih =>
    obtain ⟨rest, rfl, h⟩ := h
    exact ih _ h
  | input n use next ih => exact ih h.2
  | output n next ih =>
    rw [Schema.rollBack, Schema.rollBack, h.1.identifiers_eq, h.1.oldValues_eq]
    exact (detached_setPrimals _ _).mirrors.bind fun _ _ _ => ih h.2

theorem fetchPrimals (h : s.Alike r r') (traits : Traits) :
    (s.fetchPrimals traits r).Mirrors s.Alike (s.fetchPrimals traits r') := by
  induction s with
  | done => exact .pure trivial
  | scalar ty next ih =>
    obtain ⟨rest, rfl, h⟩ := h
    exact (ih _ h).bind fun q q' hq => .pure ⟨q', rfl, hq⟩
  | input n use next ih =>
    exact (h.1.fetchInput traits use).bind fun a b hab =>
      (ih h.2).bind fun q q' hq => .pure ⟨hab, hq⟩
  | output n next ih => exact (ih h.2).bind fun q q' hq => .pure ⟨h.1, hq⟩

theorem release (h : s.Alike r r') : (s.release r).Mirrors Eq (s.release r') := by
  refine (Program.mirrors_reclaimAll h.sameScalars.length_arrays).bind fun _ _ _ => ?_
  refine (Program.mirrors_act .poolIdle).bind fun idle idle' hidle => ?_
  obtain rfl : idle = idle' := hidle
  cases idle with
  | true => exact .pure rfl
  | false => exact .fail _

end Alike

section Callbacks

open Program (act)

theorem mirrors_restoreOutput (traits : Traits) (n : Nat) :
    (restoreOutput (F := F) traits n).Mirrors Staged.Alike (restoreOutput traits n) := by
  refine (Program.mirrors_lendStaged _ _ _ _).bind fun a b hab => ?_
  refine (Program.mirrors_act (.readMany .dynamic .identifier n)).bind fun ids ids' hids => ?_
  refine (Program.mirrors_act (.readMany .dynamic .real _)).bind fun xs xs' hxs => .pure ?_
  exact { hab with identifiers_eq := hids, oldValues_eq := hxs }

def Blind (s : Schema F) (body : s.Record → Program F s.Record) : Prop :=
  ∀ r r', s.Alike r r' → (body r).Mirrors s.Alike (body r')

variable {s : Schema F} {body : s.Record → Program F s.Record}

theorem Blind.mirrors_replay (h : s.Blind body) (traits : Traits) {r r' : s.Record}
    (hr : s.Alike r r') :
    (s.fetchPrimals traits r >>= fun r => body r >>= s.release).Mirrors Eq
      (s.fetchPrimals traits r' >>= fun r => body r >>= s.release) :=
  (hr.fetchPrimals traits).bind fun _ _ hq => (h _ _ hq).bind fun _ _ hq => hq.release

variable [Scalar F]

theorem mirrors_restoreInput (traits : Traits) (n : Nat) (use : InputRole) :
    (restoreInput (F := F) traits n use).Mirrors Staged.Alike (restoreInput traits n use) := by
  refine (Program.mirrors_lendStaged _ _ _ _).bind fun a b hab => ?_
  have hfill (ids : List Identifier) : Staged.Alike { a with identifiers := a.identifiers.fill ids }
      { b with identifiers := b.identifiers.fill ids } := { hab with identifiers_eq := rfl }
  have hvalues {a b : Staged F} (hab : a.Alike b) {p : Program F (List F)} (hp : p.Mirrors Eq p) :
      (p >>= fun xs => pure (a.withValues xs)).Mirrors Staged.Alike
        (p >>= fun xs => pure (b.withValues xs)) := by
    refine hp.bind fun xs _ hxs => .pure ?_
    rw [← hxs]
    exact hab.withValues xs
  have hreal : (act (F := F) (.readMany .dynamic .real n)).Mirrors Eq
      (act (.readMany .dynamic .real n)) := Program.mirrors_act (.readMany .dynamic .real n)
  have hpassive (ids : List Identifier) :
      (restorePassive (F := F) ids).Mirrors Eq (restorePassive ids) :=
    (detached_restorePassive ids).mirrors.mono fun _ _ hxs => hxs.1.symm
  dsimp only
  split
  case isTrue =>
    refine (Program.mirrors_act (.readMany .dynamic .identifier n)).bind fun ids ids' hids => ?_
    obtain rfl : ids = ids' := hids
    cases use.origin traits with
    | absent => exact .pure (hfill ids)
    | written => exact hvalues (hfill ids) hreal
    | primalVector => exact hvalues (hfill ids) (hpassive ids)
  case isFalse =>
    cases use.origin traits with
    | absent => exact .pure (hfill [])
    | written => exact hvalues (hfill []) hreal
    | primalVector => exact hvalues (hfill []) (hpassive [])

theorem mirrors_restore (traits : Traits) (s : Schema F) :
    (s.restore traits).Mirrors s.Alike (s.restore traits) := by
  induction s with
  | done => exact .pure trivial
  | scalar ty next ih =>
    refine (Program.mirrors_act (.read .fixed ty)).bind fun x x' hx => ?_
    obtain rfl : x = x' := hx
    exact (ih x).bind fun r r' hr => .pure ⟨r', rfl, hr⟩
  | input n use next ih =>
    refine (mirrors_restoreInput traits n use).bind fun a b hab => ?_
    exact ih.bind fun r r' hr => .pure ⟨hab, hr⟩
  | output n next ih =>
    refine (mirrors_restoreOutput traits n).bind fun a b hab => ?_
    exact ih.bind fun r r' hr => .pure ⟨hab, hr⟩

theorem mirrors_opened {p : Traits → s.Record → Program F Unit}
    (h : ∀ traits r r', s.Alike r r' → (p traits r).Mirrors Eq (p traits r')) :
    (do
      let traits ← act .traits
      let r ← s.restore traits
      Program.finishBoth
      p traits r : Program F Unit).Mirrors Eq (do
      let traits ← act .traits
      let r ← s.restore traits
      Program.finishBoth
      p traits r) := by
  refine (Program.mirrors_act .traits).bind fun traits traits' htraits => ?_
  obtain rfl : traits = traits' := htraits
  refine (mirrors_restore traits s).bind fun r r' hr => ?_
  have hfinish : (Program.finishBoth (F := F)).Detached fun _ => True :=
    ⟨trivial, fun _ => ⟨trivial, fun _ => trivial⟩⟩
  exact hfinish.mirrors.bind fun _ _ _ => h traits r r' hr

theorem Blind.mirrors_forward (h : s.Blind body) :
    (s.forward body).Mirrors Eq (s.forward body) :=
  mirrors_opened fun traits _ _ hr => h.mirrors_replay traits hr

theorem Blind.mirrors_reverse (h : s.Blind body) :
    (s.reverse body).Mirrors Eq (s.reverse body) := by
  refine mirrors_opened fun traits r r' hr => ?_
  dsimp only
  split
  case isTrue => exact hr.rollBack.bind fun _ _ _ => h.mirrors_replay traits hr
  case isFalse => exact h.mirrors_replay traits hr

theorem Blind.mirrors_delete (h : s.Blind body) :
    (s.delete body).Mirrors Eq (s.delete body) :=
  mirrors_opened fun _ r r' hr => (h r r' hr).bind fun _ _ hq =>
    Program.mirrors_reclaimAll hq.sameScalars.length_arrays

end Callbacks

end Schema

/-- A callback that restores its record, does its own part and releases the record, or one that has
nothing to do with the pool. If the pools of two runs may be `apart`, its own part is blind to the
room of the buffers. -/
inductive Program.Orderly [Scalar F] (apart : Prop) : Program F Unit → Prop
  | forward (s : Schema F) {body} (hkeeps : s.Keeps body) (hblind : apart → s.Blind body) :
      Orderly apart (s.forward body)
  | reverse (s : Schema F) {body} (hkeeps : s.Keeps body) (hblind : apart → s.Blind body) :
      Orderly apart (s.reverse body)
  | delete (s : Schema F) {body} (hkeeps : s.Keeps body) (hblind : apart → s.Blind body) :
      Orderly apart (s.delete body)
  | detached {p} (h : p.Detached fun _ => True) : Orderly apart p

namespace Program.Orderly

variable [Scalar F] {apart : Prop} {p : Program F Unit}

theorem settles (h : p.Orderly apart) : p.Settles := by
  cases h with
  | forward s hkeeps => exact settles_of_borrows fun _ => hkeeps.borrows_forward
  | reverse s hkeeps => exact settles_of_borrows fun _ => hkeeps.borrows_reverse
  | delete s hkeeps => exact settles_of_borrows fun _ => hkeeps.borrows_delete
  | detached h => exact h.settles

theorem mirrors (h : p.Orderly apart) (hapart : apart) : p.Mirrors Eq p := by
  cases h with
  | forward s _ hblind => exact (hblind hapart).mirrors_forward
  | reverse s _ hblind => exact (hblind hapart).mirrors_reverse
  | delete s _ hblind => exact (hblind hapart).mirrors_delete
  | detached h => exact h.mirrors.mono fun _ _ hxy => hxy.1.symm

end Program.Orderly

structure Kernel.Orderly [Scalar F] (apart : Prop) (k : Kernel F) : Prop where
  forward : k.forward.Orderly apart
  reverse : k.reverse.Orderly apart
  delete : k.delete.Orderly apart

end Autodiff
