import Autodiff.Proofs.Books
import Autodiff.Proofs.Leads
import Autodiff.Session

namespace Autodiff

theorem exists_of_map_eq_ok {ε α β : Type} {f : α → β} {x : Except ε α} {y : β}
    (h : f <$> x = .ok y) : ∃ a, x = .ok a ∧ f a = y := by
  rw [map_eq_pure_bind] at h
  obtain ⟨a, hx, h⟩ := exists_of_bind_eq_ok h
  exact ⟨a, hx, Except.ok.inj h⟩

theorem Session.eq_ok_of_quiet {F α : Type} {x : Except Fault α} {y : α}
    (h : (quiet x : Except (Halt F) α) = .ok y) : x = .ok y := by
  cases x with
  | error => cases h
  | ok =>
    cases h
    rfl

variable {F : Type} [Scalar F]

def Shelved (tapes : List (Option (Tape F))) : Prop :=
  ∃ (s : Shelf F) (ps : List (Posting F)), s.Runs (fun _ _ _ => True) ps ∧
    s.reels.map (·.map Reel.tape) = tapes

namespace Shelved

variable {tapes : List (Option (Tape F))} {i j : Nat} {t t' u : Tape F}

theorem exists_reel {s : Shelf F} (hs : s.reels.map (·.map Reel.tape) = tapes)
    (hi : tapes[i]? = some (some t)) :
    ∃ reel, s.reels[i]? = some (some reel) ∧ reel.tape = t := by
  rw [← hs, List.getElem?_map] at hi
  obtain ⟨reel?, hreel, ht⟩ := Option.map_eq_some_iff.mp hi
  obtain ⟨reel, rfl, rfl⟩ := Option.map_eq_some_iff.mp ht
  exact ⟨reel, hreel, rfl⟩

theorem create (h : Shelved tapes) (policy : Policy) (kind : TapeKind) :
    Shelved (tapes ++ [some (.new policy kind)]) := by
  obtain ⟨s, ps, hs, rfl⟩ := h
  exact ⟨_, _, hs.create policy kind, List.map_append⟩

theorem act (h : Shelved tapes) (hi : tapes[i]? = some (some t)) {cs : List (Change F)}
    {ds : List (Deed F)} (ha : t.Acts (fun _ => True) cs ds t') :
    Shelved (tapes.set i (some t')) := by
  obtain ⟨s, ps, hs, htapes⟩ := h
  obtain ⟨reel, hreel, rfl⟩ := exists_reel htapes hi
  refine ⟨_, _, hs.act hreel ha, ?_⟩
  rw [Shelf.put, List.map_set, htapes]
  rfl

theorem leads (h : Shelved tapes) (hi : tapes[i]? = some (some t)) (ht : t.Leads t') :
    Shelved (tapes.set i (some t')) := by
  obtain ⟨hlt, hself⟩ := List.getElem?_eq_some_iff.mp hi
  induction ht with
  | refl => rwa [← hself, List.set_getElem_self]
  | tail _ ha ih =>
    obtain ⟨cs, ds, ha⟩ := ha
    have hnext := ih.act (List.getElem?_set_self hlt) ha
    rwa [List.set_set] at hnext

theorem swap (h : Shelved tapes) (hi : tapes[i]? = some (some t)) (hj : tapes[j]? = some (some u)) :
    Shelved ((tapes.set i (some u)).set j (some t)) := by
  obtain ⟨s, ps, hs, htapes⟩ := h
  obtain ⟨a, ha, rfl⟩ := exists_reel htapes hi
  obtain ⟨b, hb, rfl⟩ := exists_reel htapes hj
  refine ⟨_, _, hs.swap ha hb, ?_⟩
  rw [Shelf.put, Shelf.put, List.map_set, List.map_set, htapes]
  rfl

end Shelved

namespace Session

variable {s s' : Session F} {catalogue : Script F → Catalogue F}

theorem set_tape_self (s : Session F) (t : Nat) : s.tapes.set t (s.tape t) = s.tapes := by
  by_cases ht : t < s.tapes.length
  · simp [tape, ht]
  · rw [List.set_eq_of_length_le (not_lt.mp ht)]

theorem getElem?_some_tape {t : Nat} (ht : t < s.tapes.length) :
    (s.tapes.map some)[t]? = some (some (s.tape t)) := by
  simp [tape, ht]

theorem shelved_start (policy : Policy) (kinds : List TapeKind) (values : List F) :
    Shelved ((start policy kinds values).tapes.map some) := by
  change Shelved ((kinds.map (Tape.new policy)).map some)
  induction kinds using List.reverseRecOn with
  | nil => exact ⟨_, _, .empty, rfl⟩
  | append_singleton kinds kind ih =>
    rw [List.map_append, List.map_append]
    exact ih.create policy kind

def Moves (s : Session F) (t : Nat) (s' : Session F) : Prop :=
  ∃ t', (s.tape t).Leads t' ∧ s'.tapes = s.tapes.set t t'

theorem Moves.same {t : Nat} (h : s'.tapes = s.tapes) : s.Moves t s' :=
  ⟨s.tape t, .refl, by rw [h, set_tape_self]⟩

theorem Moves.act {t : Nat} {cs : List (Change F)} {ds : List (Deed F)} {t' : Tape F}
    (ha : (s.tape t).Acts (fun _ => True) cs ds t') (h : s'.tapes = s.tapes.set t t') :
    s.Moves t s' := ⟨t', .act ha, h⟩

theorem step_moves {t : Nat} {command : Command F} {outcome : Outcome F}
    (h : s.step catalogue t command = .ok outcome) (hswap : ∀ other, command ≠ .swap other) :
    s.Moves t outcome.session := by
  cases command with
  | operate op =>
    obtain ⟨⟨note, r⟩, hr, h⟩ := exists_of_bind_eq_ok h
    cases h
    exact ⟨r.tape, (Recording.apply_records (eq_ok_of_quiet hr)).leads, rfl⟩
  | addRecord token fixedSize dynamicSize fixed dynamic =>
    obtain ⟨⟨notes, u⟩, hu, h⟩ := exists_of_bind_eq_ok (eq_ok_of_quiet h)
    cases h
    exact ⟨u, (Tape.Records.addRecord hu).leads, rfl⟩
  | clear =>
    obtain ⟨u, hu, rfl⟩ := exists_of_map_eq_ok h
    exact .act (.clear hu) rfl
  | backTo p =>
    obtain ⟨u, hu, rfl⟩ := exists_of_map_eq_ok h
    exact .act (.backTo hu trivial) rfl
  | adjointSweepAll =>
    obtain ⟨u, hu, rfl⟩ := exists_of_map_eq_ok h
    exact .act (.adjointSweep hu) rfl
  | tangentSweepAll =>
    obtain ⟨u, hu, rfl⟩ := exists_of_map_eq_ok h
    exact .act (.tangentSweep hu) rfl
  | adjointSweep start stop =>
    obtain ⟨u, hu, rfl⟩ := exists_of_map_eq_ok h
    exact .act (.adjointSweep hu) rfl
  | tangentSweep start stop =>
    obtain ⟨u, hu, rfl⟩ := exists_of_map_eq_ok h
    exact .act (.tangentSweep hu) rfl
  | setGradient ref x =>
    cases h
    refine .act (.seed _ ((s.tape t).vectors.adjoints.scatter [(s.identifier t ref, x)])) ?_
    change _ = s.tapes.set t { s.tape t with vectors := _ }
    rw [← Vectors.setGradient_eq]
    rfl
  | writeGradient ref x =>
    cases h
    exact .act (.seed _ _) rfl
  | zeroAdjoints =>
    cases h
    exact .act (.seed _ _) rfl
  | shrink =>
    obtain ⟨u, hu, rfl⟩ := exists_of_map_eq_ok h
    exact .act (.shrink (eq_ok_of_quiet hu)) rfl
  | fillAdjoints x =>
    cases h
    exact .act (.seed _ _) rfl
  | resizeAdjoints n =>
    cases h
    exact .act (.seed _ _) rfl
  | swap other => exact absurd rfl (hswap other)
  | setParameter name n =>
    cases h
    unfold request
    split
    case h_1 u hu => exact ⟨u, .setParameter hu, rfl⟩
    case h_2 => exact .same rfl
  | getParameter name =>
    cases h
    unfold request
    split <;> exact .same rfl
  | report =>
    obtain ⟨r, -, h⟩ := exists_of_bind_eq_ok h
    cases h
    exact .same rfl
  | poolTake values identifiers =>
    cases h
    exact .act (.stage _ _) rfl
  | poolGive =>
    obtain ⟨pool, -, h⟩ := exists_of_bind_eq_ok (eq_ok_of_quiet h)
    obtain ⟨pool', -, h⟩ := exists_of_bind_eq_ok h
    cases h
    exact .act (.stage _ _) rfl
  | _ =>
    cases h
    exact .same rfl

variable {t : Nat} {command : Command F} {outcome : Outcome F}

def Serves (s : Session F) (steps : List (Nat × Command F)) : Prop :=
  ∀ t other, (t, .swap other) ∈ steps → t < s.tapes.length ∧ other < s.tapes.length

theorem step_length (h : s.step catalogue t command = .ok outcome) :
    outcome.session.tapes.length = s.tapes.length := by
  by_cases hswap : ∃ other, command = .swap other
  · obtain ⟨other, rfl⟩ := hswap
    cases h
    simp [swap, setTape]
  · obtain ⟨t', -, htapes⟩ := step_moves h (not_exists.mp hswap)
    rw [htapes, List.length_set]

theorem step_shelved (hs : Shelved (s.tapes.map some))
    (h : s.step catalogue t command = .ok outcome) (hserves : s.Serves [(t, command)]) :
    Shelved (outcome.session.tapes.map some) := by
  by_cases hswap : ∃ other, command = .swap other
  · obtain ⟨other, rfl⟩ := hswap
    obtain ⟨ht, hother⟩ := hserves t other (List.mem_singleton.mpr rfl)
    cases h
    have hswapped := hs.swap (getElem?_some_tape ht) (getElem?_some_tape hother)
    rwa [← List.map_set, ← List.map_set] at hswapped
  · obtain ⟨t', hleads, htapes⟩ := step_moves h (not_exists.mp hswap)
    rw [htapes, List.map_set]
    by_cases ht : t < s.tapes.length
    · exact hs.leads (getElem?_some_tape ht) hleads
    · rwa [List.set_eq_of_length_le (by simpa using ht)]

theorem run_shelved {steps : List (Nat × Command F)} (hs : Shelved (s.tapes.map some))
    (h : (s.run catalogue steps).2 = .ok s') (hserves : s.Serves steps) :
    Shelved (s'.tapes.map some) := by
  induction steps generalizing s with
  | nil =>
    cases h
    exact hs
  | cons first steps ih =>
    obtain ⟨t, command⟩ := first
    rw [run] at h
    split at h
    case h_1 => cases h
    case h_2 outcome hstep =>
      apply ih _ h
      · intro t other hmem
        rw [step_length hstep]
        exact hserves t other (List.mem_cons_of_mem _ hmem)
      · apply step_shelved hs hstep
        intro t other hmem
        apply hserves t other
        exact List.mem_cons.mpr (.inl (List.mem_singleton.mp hmem))

theorem run_sound {policy : Policy} {kinds : List TapeKind} {values : List F}
    {steps : List (Nat × Command F)} (hserves : (start policy kinds values).Serves steps)
    (h : ((start policy kinds values).run catalogue steps).2 = .ok s) :
    ∀ t ∈ s.tapes, ∃ reel : Reel F, reel.tape = t ∧ reel.Sound := by
  intro t ht
  obtain ⟨shelf, ps, hruns, hreels⟩ := run_shelved (shelved_start policy kinds values) h hserves
  obtain ⟨i, hi⟩ := List.mem_iff_getElem?.mp (List.mem_map_of_mem (f := some) ht)
  obtain ⟨reel, hreel, rfl⟩ := Shelved.exists_reel hreels hi
  exact ⟨reel, rfl, hruns.sound reel (List.mem_of_getElem? hreel)⟩

end Session

end Autodiff
