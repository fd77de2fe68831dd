import Autodiff.Proofs.ExternalCalls
import Autodiff.Session

namespace Autodiff

variable {F : Type} [Scalar F]

def Report.UpToPool (r r' : Report) : Prop :=
  ∃ (rest : Report) (bytes bytes' : Nat), r = rest.addMemory "Scratch memory" bytes ∧
    r' = rest.addMemory "Scratch memory" bytes'

inductive Reply.UpToPool : Reply F → Reply F → Prop
  | refl (reply) : UpToPool reply reply
  | tapes {ts us} (h : List.Forall₂ (Tape.UpToPool 0) ts us) : UpToPool (.tapes ts) (.tapes us)
  | contents {t u} (h : t.UpToPool 0 u) : UpToPool (.contents t) (.contents u)
  | statistics {r r'} (h : r.UpToPool r') : UpToPool (.statistics r) (.statistics r')

namespace Session

structure UpToPool (s s' : Session F) : Prop where
  tapes : List.Forall₂ (Tape.UpToPool 0) s.tapes s'.tapes
  rest_eq : s' = { s with tapes := s'.tapes }

structure Outcome.UpToPool (o o' : Outcome F) : Prop where
  reply : o.reply.UpToPool o'.reply
  notes : List.Forall₂ Note.Alike o.notes o'.notes
  session : o.session.UpToPool o'.session

structure Answer.UpToPool (a a' : Answer F) : Prop where
  reply : a.reply.UpToPool a'.reply
  tape : a.tape.UpToPool 0 a'.tape
  notes : List.Forall₂ Note.Alike a.notes a'.notes

end Session

def Command.OnPool : Command F → Prop
  | poolTake _ _ | poolGive | pool => True
  | _ => False

theorem Tape.report_upToPool {t u : Tape F} (h : t.UpToPool 0 u) :
    Coupled Fault.Agree Report.UpToPool t.report u.report := by
  obtain ⟨pool, hpool, rfl⟩ := h.exists_eq
  have hissuer (r : Report) : Avoids Fault.OfPool (t.issuer.report r) fun _ => True := by
    rw [Issuer.report]
    split
    · trivial
    · exact .ite trivial id
  refine (Coupled.of_avoids (hissuer _)).bind ?_
  rintro _ r ⟨rfl, -⟩
  exact .ok ⟨_, _, _, rfl, rfl⟩

theorem Tape.getParameterByName_coupled {t u : Tape F} (h : t.UpToPool 0 u) (name : String) :
    Coupled Eq Eq (t.getParameterByName name) (u.getParameterByName name) := by
  obtain ⟨pool, -, rfl⟩ := h.exists_eq
  change Coupled Eq Eq (t.getParameterByName name) (t.getParameterByName name)
  cases t.getParameterByName name with
  | ok n => exact .ok rfl
  | error cause => exact .error rfl

theorem Tape.setParameter_coupled {t u : Tape F} (h : t.UpToPool 0 u) (p : Parameter) (n : Nat) :
    Coupled Eq (UpToPool 0) (t.setParameter p n) (u.setParameter p n) := by
  obtain ⟨pool, hpool, rfl⟩ := h.exists_eq
  cases p with
  | adjointSize =>
    exact .ok (h.map (f := fun t => t.withAdjoints (t.vectors.adjoints.resize n)) fun _ _ => rfl)
  | primalSize =>
    rw [setParameter, setParameter, show (t.withPool pool).vectors = t.vectors from rfl]
    cases t.vectors.primals with
    | none => exact .error rfl
    | some p => exact .ok (h.map (f := (·.withPrimals (some (p.resize n)))) fun _ _ => rfl)
  | largestIdentifier => exact .error rfl
  | _ => exact .ok h

theorem Tape.setParameterByName_coupled {t u : Tape F} (h : t.UpToPool 0 u) (name : String)
    (n : Nat) :
    Coupled Eq (UpToPool 0) (t.setParameterByName name n) (u.setParameterByName name n) := by
  rw [setParameterByName, setParameterByName]
  cases parameterOfName name with
  | ok p => exact setParameter_coupled h p n
  | error cause => exact .error rfl

theorem Writer.step_avoids (w : Writer F) (st : WritingStep F) :
    Avoids Fault.OfPool (w.step st) fun _ => True := by
  have hfatal (cause : Cause) : ¬ Fault.OfPool (.fatal cause) := id
  cases st with
  | write ty x => exact (w.put_avoids hfatal _).bind fun _ _ => trivial
  | writeMany ty xs => exact (w.put_avoids hfatal _).bind fun _ _ => trivial
  | remaining => trivial
  | finish => exact (w.finish_avoids hfatal).bind fun _ _ => trivial

theorem Writer.runSteps_avoids (w : Writer F) (steps : List (WritingStep F)) :
    Avoids Fault.OfPool (w.runSteps steps) fun _ => True := by
  induction steps generalizing w with
  | nil => trivial
  | cons st steps ih =>
    exact (w.step_avoids st).bind fun x _ => (ih x.2).bind fun _ _ => trivial

namespace Session

variable {apart : Prop} {s s' : Session F} {catalogue : Script F → Catalogue F}

omit [Scalar F] in
theorem quiet_coupled {α β : Type} {R : α → β → Prop} {e : Except Fault α} {e' : Except Fault β}
    (h : Coupled Fault.Agree R e e') :
    Coupled (Halt.Agree (F := F)) R (quiet e) (quiet e') := by
  cases h with
  | ok h => exact .ok h
  | error h => exact .error ⟨⟨h.1, .nil⟩, h.2⟩

namespace UpToPool

theorem exists_eq (h : s.UpToPool s') :
    ∃ tapes, List.Forall₂ (Tape.UpToPool 0) s.tapes tapes ∧ s' = { s with tapes := tapes } :=
  ⟨s'.tapes, h.tapes, h.rest_eq⟩

theorem tape (h : s.UpToPool s') (t : Nat) : (s.tape t).UpToPool 0 (s'.tape t) :=
  forall₂_getD h.tapes ⟨rfl, rfl, rfl⟩ t

theorem setTape (h : s.UpToPool s') (i : Nat) {t u : Tape F} (ht : t.UpToPool 0 u) :
    (s.setTape i t).UpToPool (s'.setTape i u) := by
  obtain ⟨tapes, htapes, rfl⟩ := h.exists_eq
  refine ⟨?_, rfl⟩
  rw [Session.setTape, Session.setTape, List.set_eq_modify, List.set_eq_modify]
  exact forall₂_modify htapes (fun _ _ _ => ht) i

theorem recording (h : s.UpToPool s') (t : Nat) :
    (s.recording t).UpToPool 0 (s'.recording t) := by
  refine ⟨h.tape t, ?_⟩
  rw [h.rest_eq]
  rfl

theorem withRecording (h : s.UpToPool s') (t : Nat) {r r' : Recording F} (hr : r.UpToPool 0 r') :
    (s.withRecording t r).UpToPool (s'.withRecording t r') := by
  obtain ⟨tapes, htapes, heq⟩ := (h.setTape t hr.tape).exists_eq
  rw [Session.withRecording, Session.withRecording, heq, hr.vars_eq]
  exact ⟨htapes, rfl⟩

theorem place_eq (h : s.UpToPool s') (t : Nat) (p : Place) : s'.place t p = s.place t p := by
  cases p with
  | zero => rfl
  | here =>
    obtain ⟨pool, -, htape⟩ := (h.tape t).exists_eq
    rw [place, place, htape]
    rfl
  | mark n =>
    rw [h.rest_eq]
    rfl

theorem identifier_eq (h : s.UpToPool s') (t : Nat) (ref : IdRef) :
    s'.identifier t ref = s.identifier t ref := (h.recording t).resolve_eq ref

theorem answer (h : s.UpToPool s') (n : Note F) : (s.answer n).UpToPool (s'.answer n) :=
  ⟨.refl _, .nil, h⟩

theorem change (h : s.UpToPool s') (i : Nat) {t u : Tape F} (ht : t.UpToPool 0 u) :
    (s.change i t).UpToPool (s'.change i u) := (h.setTape i ht).answer .nothing

theorem traced (h : s.UpToPool s') (i : Nat) {e e' : Except (Halt F) (Traced F)}
    (he : Coupled Halt.Agree Traced.UpToPool e e') :
    Coupled Halt.Agree Outcome.UpToPool (s.traced i <$> e) (s'.traced i <$> e') :=
  he.map fun _ _ hr => ⟨.refl _, hr.notes, h.setTape i hr.tape⟩

theorem changed (h : s.UpToPool s') (i : Nat) {e e' : Except Fault (Tape F)}
    (he : Coupled Fault.Agree (Tape.UpToPool 0) e e') :
    Coupled (Halt.Agree (F := F)) Outcome.UpToPool (s.change i <$> quiet e)
      (s'.change i <$> quiet e') :=
  (quiet_coupled he).map fun _ _ ht => h.change i ht

theorem addRecord (h : s.UpToPool s') (t : Nat) (c : Catalogue F) (token : Token)
    (fixedSize dynamicSize : Nat) (fixed dynamic : List (WritingStep F)) :
    Coupled Fault.Agree Outcome.UpToPool (s.addRecord t c token fixedSize dynamicSize fixed dynamic)
      (s'.addRecord t c token fixedSize dynamicSize fixed dynamic) := by
  refine ((h.tape t).addRecord fixedSize dynamicSize fun f d => ?_).bind ?_
  · exact (f.runSteps_avoids fixed).bind fun _ _ => (d.runSteps_avoids dynamic).bind fun _ _ => trivial
  · rintro ⟨notes, tape⟩ ⟨_, tape'⟩ ⟨rfl, ht⟩
    exact .ok ((h.setTape t ht).answer _)

theorem swap (h : s.UpToPool s') (t other : Nat) :
    Outcome.UpToPool (s.swap t other) (s'.swap t other) := by
  have hswapped := (h.setTape t (h.tape other)).setTape other (h.tape t)
  exact ⟨.tapes (.cons (hswapped.tape t) (.cons (hswapped.tape other) .nil)), .nil, hswapped⟩

theorem request (h : s.UpToPool s') {α : Type} {R : α → α → Prop} {e e' : Except Cause α}
    (he : Coupled Eq R e e') {accept accept' : α → Outcome F}
    (haccept : ∀ x y, R x y → Outcome.UpToPool (accept x) (accept' y)) :
    Outcome.UpToPool (s.request e accept) (s'.request e' accept') := by
  cases he with
  | ok hxy => exact haccept _ _ hxy
  | error heq =>
    subst heq
    exact ⟨.refl _, .nil, h⟩

end UpToPool

theorem step_coupled (hk : ∀ script, (catalogue script).kernels.Orderly apart)
    (h : Near apart UpToPool s s') (t : Nat) {c : Command F} (hc : ¬ c.OnPool) :
    Coupled Halt.Agree Outcome.UpToPool (s.step catalogue t c) (s'.step catalogue t c) := by
  have hscript : s'.script = s.script := by
    rw [h.1.rest_eq]
  have htape := h.1.tape t
  obtain ⟨pool, hpool, heq⟩ := htape.exists_eq
  have hposition : (s'.tape t).position = (s.tape t).position := by
    rw [heq]
    rfl
  have hnear : Near apart (Tape.UpToPool 0) (s.tape t) (s'.tape t) :=
    ⟨htape, fun hapart => by rw [h.2 hapart]⟩
  have hanswer {n n' : Note F} (hn : n' = n) :
      Coupled (Halt.Agree (F := F)) Outcome.UpToPool (.ok (s.answer n)) (.ok (s'.answer n')) := by
    rw [hn]
    exact .ok (h.1.answer n)
  have hchange {f : Tape F → Tape F} (hf : Tape.SparesPool f) :
      Coupled (Halt.Agree (F := F)) Outcome.UpToPool (.ok (s.change t (f (s.tape t))))
        (.ok (s'.change t (f (s'.tape t)))) := .ok (h.1.change t (htape.map hf))
  rw [step.eq_def, step.eq_def]
  cases c with
  | operate op =>
    dsimp only
    rw [hscript]
    refine (quiet_coupled ((h.1.recording t).apply _ op)).bind ?_
    rintro ⟨note, r⟩ ⟨_, r'⟩ ⟨rfl, hr⟩
    exact .ok ((h.1.withRecording t hr).answer _)
  | largest => exact hanswer (by rw [heq]; rfl)
  | describe v => exact hanswer (by rw [(h.1.recording t).get_eq])
  | token b => exact hanswer (by rw [hscript])
  | addRecord token fixedSize dynamicSize fixed dynamic =>
    dsimp only
    rw [hscript]
    exact quiet_coupled (h.1.addRecord t _ token fixedSize dynamicSize fixed dynamic)
  | script script =>
    obtain ⟨tapes, htapes, rfl⟩ := h.1.exists_eq
    exact .ok ⟨.refl _, .nil, htapes, rfl⟩
  | position =>
    dsimp only
    exact hanswer (by rw [hposition])
  | mark =>
    dsimp only
    rw [hposition]
    obtain ⟨tapes, htapes, rfl⟩ := h.1.exists_eq
    exact .ok ⟨.refl _, .nil, htapes, rfl⟩
  | compare a b =>
    dsimp only
    rw [h.1.place_eq, h.1.place_eq]
    exact .ok ⟨.refl _, .nil, h.1⟩
  | statementCount => exact hanswer (by rw [heq]; rfl)
  | clear => 
    dsimp only
    rw [hscript]
    exact h.1.traced t (Tape.clear_coupled (hk _) hnear)
  | backTo p =>
    dsimp only
    rw [hscript, h.1.place_eq]
    exact h.1.traced t (Tape.backTo_coupled (hk _) hnear _)
  | adjointSweepAll =>
    dsimp only
    rw [Tape.adjointSweepAll, Tape.adjointSweepAll, hscript, hposition]
    exact h.1.traced t (Tape.adjointSweep_coupled (hk _) hnear _ _)
  | tangentSweepAll =>
    dsimp only
    rw [Tape.tangentSweepAll, Tape.tangentSweepAll, hscript, hposition]
    exact h.1.traced t (Tape.tangentSweep_coupled (hk _) hnear _ _)
  | adjointSweep start stop =>
    dsimp only
    rw [hscript, h.1.place_eq, h.1.place_eq]
    exact h.1.traced t (Tape.adjointSweep_coupled (hk _) hnear _ _)
  | tangentSweep start stop =>
    dsimp only
    rw [hscript, h.1.place_eq, h.1.place_eq]
    exact h.1.traced t (Tape.tangentSweep_coupled (hk _) hnear _ _)
  | gradient ref => exact hanswer (by rw [h.1.identifier_eq, heq]; rfl)
  | gradients refs =>
    refine hanswer (congrArg Note.list (List.map_congr_left fun ref _ => ?_))
    rw [h.1.identifier_eq, heq]
    rfl
  | setGradient ref x =>
    dsimp only
    rw [h.1.identifier_eq]
    exact hchange (f := (·.setGradient (s.identifier t ref) x)) fun _ _ => rfl
  | writeGradient ref x =>
    dsimp only
    rw [h.1.identifier_eq]
    exact hchange (f := (·.writeGradient (s.identifier t ref) x)) fun _ _ => rfl
  | zeroAdjoints => exact hchange (f := Tape.zeroAdjoints) fun _ _ => rfl
  | shrink => exact h.1.changed t (Tape.shrink_coupled htape)
  | fillAdjoints x =>
    exact hchange (f := fun t => t.withAdjoints (t.vectors.adjoints.fill x)) fun _ _ => rfl
  | resizeAdjoints n =>
    exact hchange (f := fun t => t.withAdjoints (t.vectors.adjoints.resize n)) fun _ _ => rfl
  | primal ref => exact hanswer (by rw [h.1.identifier_eq, heq]; rfl)
  | inspect => exact .ok ⟨.contents htape, .nil, h.1⟩
  | kind =>
    dsimp only
    rw [heq]
    exact .ok ⟨.refl _, .nil, h.1⟩
  | swap other => exact .ok (h.1.swap t other)
  | getParameter name =>
    refine .ok (h.1.request (Tape.getParameterByName_coupled htape name) fun m n hmn => ?_)
    rw [hmn]
    exact h.1.answer (.count n)
  | setParameter name n =>
    exact .ok (h.1.request (Tape.setParameterByName_coupled htape name n) fun _ _ => h.1.change t)
  | report =>
    refine (quiet_coupled (Tape.report_upToPool htape)).bind fun r r' hr => ?_
    exact .ok ⟨.statistics hr, .nil, h.1⟩
  | poolTake => exact absurd trivial hc
  | poolGive => exact absurd trivial hc
  | pool => exact absurd trivial hc

end Session

end Autodiff
