import Autodiff.Proofs.ExactScalar
import Autodiff.Proofs.PooledSessions

namespace Autodiff

namespace Session

inductive Event (F : Type) [Scalar F]
  | command (c : Command F)
  | call (c : ExternalCall F)

variable {F : Type} [Scalar F]

def Event.Orderly (apart : Prop) : Event F → Prop
  | command c => ¬ c.OnPool
  | call c => apart → c.Blind

def perform (s : Session F) (catalogue : Script F → Catalogue F) (t : Nat) :
    Event F → Except (Halt F) (Outcome F)
  | .command c => s.step catalogue t c
  | .call c => do
    let (note, r) ← quiet ((s.recording t).callExternal (catalogue s.script).kernels c)
    return (s.withRecording t r).answer note

def play (s : Session F) (catalogue : Script F → Catalogue F) :
    List (Nat × Event F) → List (Answer F) × Except (Halt F) (Session F)
  | [] => ([], .ok s)
  | (t, event) :: events =>
    match s.perform catalogue t event with
    | .error halt => ([], .error halt)
    | .ok outcome =>
      let answer : Answer F := ⟨outcome.reply, outcome.session.tape t, outcome.notes⟩
      let (answers, result) := outcome.session.play catalogue events
      (answer :: answers, result)

theorem play_command (s : Session F) (catalogue : Script F → Catalogue F)
    (steps : List (Nat × Command F)) :
    s.play catalogue (steps.map fun step => (step.1, .command step.2)) = s.run catalogue steps := by
  induction steps generalizing s with
  | nil => rfl
  | cons step steps ih =>
    rw [List.map_cons, play, run, perform]
    cases s.step catalogue step.1 step.2 with
    | error halt => rfl
    | ok outcome =>
      dsimp only
      rw [ih]

def Idle (s : Session F) : Prop := ∀ t ∈ s.tapes, t.pool.isIdle

structure Dropped.UpToPool (x y : List (Note F) × Option Fault) : Prop where
  notes : List.Forall₂ Note.Alike x.1 y.1
  fault_eq : y.2 = x.2
  avoids : ∀ fault ∈ x.2, ¬ fault.OfPool

variable {apart : Prop} {s s' : Session F} {catalogue : Script F → Catalogue F}

theorem Idle.upToPool (h : s.Idle) : s.UpToPool s := by
  refine ⟨List.forall₂_same.mpr fun t ht => ?_, rfl⟩
  exact .of_pool (eq_of_beq (h t ht)) (eq_of_beq (h t ht))

theorem UpToPool.idle (h : s.UpToPool s') : s.Idle := by
  intro t ht
  obtain ⟨i, hi, rfl⟩ := List.mem_iff_getElem.mp ht
  exact beq_iff_eq.mpr ((List.forall₂_iff_get.mp h.tapes).2 i hi (h.tapes.length_eq ▸ hi)).lent_eq

theorem perform_coupled (hk : ∀ script, (catalogue script).kernels.Orderly apart)
    (h : Near apart UpToPool s s') (t : Nat) {event : Event F} (hevent : event.Orderly apart) :
    Coupled Halt.Agree (Near apart Outcome.UpToPool) (s.perform catalogue t event)
      (s'.perform catalogue t event) := by
  -- Sessions that nothing sets apart are one session, and so are those that they come to.
  refine Coupled.near ?_ fun hapart => by rw [h.2 hapart]
  cases event with
  | command c => exact step_coupled hk h t hevent
  | call c =>
    have hscript : s'.script = s.script := by
      rw [h.1.rest_eq]
    have hrecording : Near apart (Recording.UpToPool 0) (s.recording t) (s'.recording t) :=
      ⟨h.1.recording t, fun hapart => by rw [h.2 hapart]⟩
    rw [perform, perform, hscript]
    refine (quiet_coupled (Recording.callExternal_coupled hrecording hevent)).bind ?_
    rintro ⟨note, r⟩ ⟨_, r'⟩ ⟨rfl, hr⟩
    exact .ok ((h.1.withRecording t hr).answer _)

theorem play_coupled (hk : ∀ script, (catalogue script).kernels.Orderly apart)
    (h : Near apart UpToPool s s') {events : List (Nat × Event F)}
    (hevents : ∀ e ∈ events, e.2.Orderly apart) :
    List.Forall₂ Answer.UpToPool (s.play catalogue events).1 (s'.play catalogue events).1 ∧
      Coupled Halt.Agree (Near apart UpToPool) (s.play catalogue events).2
        (s'.play catalogue events).2 := by
  induction events generalizing s s' with
  | nil => exact ⟨.nil, .ok h⟩
  | cons e events ih =>
    obtain ⟨he, hevents⟩ := List.forall_mem_cons.mp hevents
    have hstep := perform_coupled hk h e.1 he
    rw [play, play]
    generalize s.perform catalogue e.1 e.2 = o at hstep
    generalize s'.perform catalogue e.1 e.2 = o' at hstep
    cases hstep with
    | error hhalt => exact ⟨.nil, .error hhalt⟩
    | @ok o o' ho =>
      obtain ⟨hanswers, hresult⟩ := ih ⟨ho.1.session, fun hapart => by rw [ho.2 hapart]⟩ hevents
      exact ⟨.cons ⟨ho.1.reply, ho.1.session.tape e.1, ho.1.notes⟩ hanswers, hresult⟩

theorem dropTapes_coupled {kernels : Kernels F} (hk : kernels.Orderly apart) {ts us : List (Tape F)}
    (h : Near apart (List.Forall₂ (Tape.UpToPool 0)) ts us) :
    Dropped.UpToPool (dropTapes kernels ts) (dropTapes kernels us) := by
  obtain ⟨h, hsame⟩ := h
  induction h with
  | nil => exact ⟨.nil, rfl, nofun⟩
  | @cons t u ts us htu _ ih =>
    have hdelete := Tape.deleteRecords_coupled hk
      ⟨htu, fun hapart => (List.cons.inj (hsame hapart)).1⟩ 0
    have hrest := ih fun hapart => (List.cons.inj (hsame hapart)).2
    rw [dropTapes, dropTapes, Tape.discard, Tape.discard]
    generalize t.deleteRecords kernels 0 = e at hdelete
    generalize u.deleteRecords kernels 0 = e' at hdelete
    cases hdelete with
    | ok hs => exact ⟨List.rel_append hs.notes hrest.notes, hrest.fault_eq, hrest.avoids⟩
    | error hhalt =>
      refine ⟨hhalt.1.notes, congrArg some hhalt.1.fault_eq, fun fault hfault => ?_⟩
      rw [← Option.some.inj hfault]
      exact hhalt.2

theorem drop_coupled (hk : ∀ script, (catalogue script).kernels.Orderly apart)
    (h : Near apart UpToPool s s') : Dropped.UpToPool (s.drop catalogue) (s'.drop catalogue) := by
  have hscript : s'.script = s.script := by
    rw [h.1.rest_eq]
  rw [drop, drop, hscript]
  exact dropTapes_coupled (hk _) ⟨h.1.tapes, fun hapart => by rw [h.2 hapart]⟩

structure Balanced (s : Session F) (catalogue : Script F → Catalogue F)
    (events : List (Nat × Event F)) : Prop where
  answers : ∀ answer ∈ (s.play catalogue events).1, answer.tape.pool.isIdle
  ended : ∀ s', (s.play catalogue events).2 = .ok s' →
    s'.Idle ∧ ∀ fault ∈ (s'.drop catalogue).2, ¬ fault.OfPool
  halted : ∀ halt, (s.play catalogue events).2 = .error halt → ¬ halt.fault.OfPool

structure Indistinct (s s' : Session F) (catalogue : Script F → Catalogue F)
    (events : List (Nat × Event F)) : Prop where
  answers : List.Forall₂ Answer.UpToPool (s.play catalogue events).1 (s'.play catalogue events).1
  results : Coupled Halt.Alike
    (fun u u' => u.UpToPool u' ∧ Dropped.UpToPool (u.drop catalogue) (u'.drop catalogue))
    (s.play catalogue events).2 (s'.play catalogue events).2

theorem Idle.balanced (hk : ∀ script, (catalogue script).kernels.Orderly False) (h : s.Idle)
    {events : List (Nat × Event F)} (hevents : ∀ e ∈ events, e.2.Orderly False) :
    s.Balanced catalogue events := by
  obtain ⟨hanswers, hresult⟩ := play_coupled hk ⟨h.upToPool, fun _ => rfl⟩ hevents
  refine ⟨fun answer hanswer => ?_, fun s' hs' => ?_, fun halt hhalt => ?_⟩
  · exact beq_iff_eq.mpr (List.forall₂_same.mp hanswers answer hanswer).tape.lent_eq
  · rw [hs'] at hresult
    cases hresult with
    | ok hs => exact ⟨hs.1.idle, (drop_coupled hk hs).avoids⟩
  · rw [hhalt] at hresult
    cases hresult with
    | error hagree => exact hagree.2

theorem UpToPool.indistinct (hk : ∀ script, (catalogue script).kernels.Orderly True)
    (h : s.UpToPool s') {events : List (Nat × Event F)} (hevents : ∀ e ∈ events, e.2.Orderly True) :
    s.Indistinct s' catalogue events := by
  obtain ⟨hanswers, hresult⟩ := play_coupled hk ⟨h, fun hapart => absurd trivial hapart⟩ hevents
  exact ⟨hanswers, hresult.mono (fun _ _ hagree => hagree.1) fun u u' hu =>
    ⟨hu.1, drop_coupled hk hu⟩⟩

end Session

namespace KernelTable

variable {I : Type} [DecidableEq I]

theorem mem_entries_registerAll {r : KernelTable I} {regs : List (I × Entry)} {e : Entry}
    (h : e ∈ (r.registerAll regs).entries) : e ∈ r.entries ∨ e ∈ regs.map Prod.snd := by
  induction regs generalizing r with
  | nil => exact .inl h
  | cons reg regs ih =>
    rcases ih h with h | h
    · rw [register] at h
      split at h
      · exact .inl h
      · rcases List.mem_append.mp h with h | h
        · exact .inl h
        · exact .inr (List.mem_cons.mpr (.inl (List.mem_singleton.mp h)))
    · exact .inr (List.mem_cons_of_mem _ h)

theorem builtin_orderly (apart : Prop) (scripts : (p : Precision) → Script p.Carrier)
    (p : Precision) : ((builtin scripts).kernels p).Orderly apart := by
  intro token kernel hkernel
  have hentry {e : Entry} (he : e ∈ (builtin scripts).entries) : e.kernel.Orderly apart := by
    rcases mem_entries_registerAll he with he | he
    · cases he
    · obtain ⟨reg, hreg, rfl⟩ := List.mem_map.mp he
      obtain ⟨b, -, hb⟩ := List.mem_flatMap.mp hreg
      obtain ⟨q, -, rfl⟩ := List.mem_map.mp hb
      exact Builtin.kernel_orderly apart (scripts q) b
  rw [kernels, lookup] at hkernel
  split at hkernel
  case h_1 => cases hkernel
  case h_2 e he =>
    have horderly := hentry (List.mem_of_getElem? he)
    split at hkernel
    case isFalse => cases hkernel
    case isTrue hp =>
      subst hp
      cases hkernel
      exact horderly

end KernelTable

theorem Catalogue.builtin_orderly (apart : Prop) (p : Precision) (script : Script p.Carrier) :
    (builtin p script).kernels.Orderly apart := by
  dsimp only [builtin]
  exact KernelTable.builtin_orderly apart _ p

open Session in
theorem Catalogue.builtin_run_coupled (p : Precision) {s s' : Session p.Carrier}
    (h : s.UpToPool s') {steps : List (Nat × Command p.Carrier)}
    (hsteps : ∀ step ∈ steps, ¬ step.2.OnPool) :
    List.Forall₂ Answer.UpToPool (s.run (builtin p) steps).1 (s'.run (builtin p) steps).1 ∧
      Coupled Halt.Agree UpToPool (s.run (builtin p) steps).2 (s'.run (builtin p) steps).2 := by
  have hevents : ∀ e ∈ steps.map fun step => (step.1, Event.command step.2),
      e.2.Orderly True := by
    intro e he
    obtain ⟨step, hstep, rfl⟩ := List.mem_map.mp he
    exact hsteps step hstep
  have hplay := play_coupled (builtin_orderly True p) ⟨h, fun hapart => absurd trivial hapart⟩
    hevents
  rw [play_command, play_command] at hplay
  exact ⟨hplay.1, hplay.2.mono (fun _ _ => id) fun _ _ hs => hs.1⟩

/-- Every callback of a record whose own part keeps its scalars returns as many value buffers and
identifier buffers as it takes, and so does a call that stages arrays and releases the record made of
them. A recording that starts with all buffers in the pools therefore never ends in a fault of a
pool, and which buffers those are shows in none of its results. A body that looks at what the arrays
hold is `Blind` to the room of their buffers, which is the allocator's business. -/
theorem buffers_return_and_carry_nothing {F : Type} [Scalar F] :
    (∀ (s : Schema F) (body : s.Record → Program F s.Record), s.Keeps body →
      (s.forward body).Settles ∧ (s.reverse body).Settles ∧ (s.delete body).Settles) ∧
    (∀ (s : Schema F) (gs : List (Staging F)) (record : List (Staged F) → s.Record),
      (∀ as, as.length = gs.length → (s.arrays (record as)).length = gs.length) →
      (Program.stageEach gs >>= fun as => Program.reclaimAll (s.arrays (record as))).Settles ∧
      ∀ r : Replay F,
        Yields ((r.pool.stageEach gs).2.reclaimAll (s.arrays (record (r.pool.stageEach gs).1)))
          fun pool =>
            (Program.stageEach gs >>= fun as => Program.reclaimAll (s.arrays (record as))).run r =
              .ok ((), r.withPool pool)) ∧
    (∀ catalogue : Script F → Catalogue F, (∀ script, (catalogue script).kernels.Orderly False) →
      ∀ s : Session F, s.Idle → ∀ events : List (Nat × Session.Event F),
        (∀ e ∈ events, e.2.Orderly False) → s.Balanced catalogue events) ∧
    (∀ catalogue : Script F → Catalogue F, (∀ script, (catalogue script).kernels.Orderly True) →
      ∀ s s' : Session F, s.UpToPool s' → ∀ events : List (Nat × Session.Event F),
        (∀ e ∈ events, e.2.Orderly True) → s.Indistinct s' catalogue events) := by
  refine ⟨fun s body hkeeps => ⟨?_, ?_, ?_⟩, fun s gs record h => ⟨?_, ?_⟩, ?_, ?_⟩
  · exact Program.settles_of_borrows fun _ => hkeeps.borrows_forward
  · exact Program.settles_of_borrows fun _ => hkeeps.borrows_reverse
  · exact Program.settles_of_borrows fun _ => hkeeps.borrows_delete
  · exact Program.settles_stageEach h
  · exact Program.run_stageEach_reclaimAll h
  · exact fun catalogue hk s hidle events hevents => hidle.balanced hk hevents
  · exact fun catalogue hk s s' h events hevents => h.indistinct hk hevents

namespace Doubling

def call : ExternalCall Int where
  token := ⟨0⟩
  schema := Scaling.schema
  arrays := [.inputs [0], .outputs 1]
  places := [⟨1, 1, 0, true⟩]
  record as := ⟨⟨1⟩, 1, 2, as.getD 0 ⟨.empty, .empty, .empty, .empty⟩,
    as.getD 1 ⟨.empty, .empty, .empty, .empty⟩, ()⟩
  length_arrays _ _ := rfl

def catalogue (_ : Script Int) : Catalogue Int := ⟨fun _ => some Scaling.kernel, fun _ => ⟨0⟩⟩

def session (pool : Pool Int) : Session Int :=
  ⟨[(Tape.new .reuse .primalValues).withPool pool], [.constant 3, .constant 0], [], .empty, [], []⟩

def events : List (Nat × Session.Event Int) :=
  [(0, .command (.operate (.input 0))), (0, .call call),
    (0, .command (.setGradient (.variable 1) 1)), (0, .command .adjointSweepAll),
    (0, .command (.gradient (.variable 0))), (0, .command .tangentSweepAll), (0, .command .clear)]

def usedPool : Pool Int := ⟨[⟨[7, 8, 9], 5⟩, ⟨[6], 1⟩], [⟨[4, 4], 2⟩], 0, 44⟩

theorem call_blind : call.Blind := by
  intro as bs h
  have hget := forall₂_getD h (.refl (⟨.empty, .empty, .empty, .empty⟩ : Staged Int))
  exact ⟨_, rfl, _, rfl, _, rfl, hget 0, hget 1, trivial⟩

theorem events_orderly (apart : Prop) : ∀ e ∈ events, e.2.Orderly apart := by
  simp [events, Session.Event.Orderly, Command.OnPool, call_blind]

end Doubling

open Doubling in
theorem buffers_return_for_doubling :
    (Scaling.schema.reverse (Scaling.reverse (F := Int))).Settles ∧
      (Program.stageEach [.inputs [⟨3, 1⟩], .outputs 1] >>= fun as =>
        Program.reclaimAll (Scaling.schema.arrays (call.record as))).Settles ∧
      (session .new).Balanced catalogue events ∧
      (session .new).Indistinct (session usedPool) catalogue events ∧
      ((session .new).play catalogue events).2.isOk := by
  obtain ⟨hcallbacks, hstaging, hbalanced, hindistinct⟩ :=
    buffers_return_and_carry_nothing (F := Int)
  have hk (apart : Prop) : ∀ script, (catalogue script).kernels.Orderly apart := by
    intro script token kernel hkernel
    cases hkernel
    exact Builtin.kernel_orderly apart .empty .scaling
  refine ⟨?_, ?_, ?_, ?_, rfl⟩
  · exact (hcallbacks _ _ Scaling.reverse_regular.keeps).2.1
  · exact (hstaging _ _ _ fun _ _ => rfl).1
  · have hidle : (session .new).Idle := List.forall_mem_singleton.mpr (by rfl)
    exact hbalanced _ (hk False) _ hidle _ (events_orderly False)
  · exact hindistinct _ (hk True) _ _ ⟨.cons ⟨rfl, rfl, rfl⟩ .nil, rfl⟩ _ (events_orderly True)

end Autodiff
