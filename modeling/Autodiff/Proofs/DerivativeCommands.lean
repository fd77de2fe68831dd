import Autodiff.Proofs.TotalMaps

namespace Autodiff

variable {F : Type} [Scalar F]

inductive DerivativeCommand (F : Type)
  | set (id : Identifier) (x : F)
  | access (id : Identifier) (f : F → F)
  | read (id : Identifier)
  | zero
  | shrink
  | resize (n : Nat)
  | tangentSweep (start stop : Position)
  | adjointSweep (start stop : Position)
  | clear

/-- The command hands out no slot of passive variables, and does not cut off either vector. -/
def DerivativeCommand.Fits (t u : Tape F) : DerivativeCommand F → Prop
  | access id _ => id ≠ passive
  | resize n => t.vectors.adjoints.size ≤ n ∧ u.vectors.adjoints.size ≤ n
  | _ => True

namespace Traced

def resume (s : Traced F) : Except (Halt F) (Traced F) → Except (Halt F) (Traced F)
  | .ok s' => .ok ⟨s'.tape, s.notes ++ s'.notes⟩
  | .error halt => .error ⟨halt.fault, s.notes ++ halt.notes⟩

def obey (kernels : Kernels F) (s : Traced F) : DerivativeCommand F → Except (Halt F) (Traced F)
  | .set id x => .ok (s.mapTape (·.setGradient id x))
  | .access id f =>
    let x := s.tape.vectors.adjoints.slot id
    .ok ⟨s.tape.writeGradient id (f x), s.notes ++ [.real x]⟩
  | .read id => .ok ⟨s.tape, s.notes ++ [.real (s.tape.gradient id)]⟩
  | .zero => .ok (s.mapTape Tape.zeroAdjoints)
  | .shrink => do
    let t ← s.attempt s.tape.shrink
    return ⟨t, s.notes⟩
  | .resize n => do
    let t ← s.attempt ((s.tape.setParameter .adjointSize n).mapError .fatal)
    return ⟨t, s.notes⟩
  | .tangentSweep start stop => s.resume (s.tape.tangentSweep kernels start stop)
  | .adjointSweep start stop => s.resume (s.tape.adjointSweep kernels start stop)
  | .clear => s.resume (s.tape.clear kernels)

variable {kernels : Kernels F} {s s' s₁ : Traced F} {command : DerivativeCommand F}

theorem eq_ok_of_resume {e : Except (Halt F) (Traced F)} (h : s.resume e = .ok s₁) :
    ∃ s₂, e = .ok s₂ ∧ s₁.tape = s₂.tape := by
  cases e with
  | error halt => cases h
  | ok s₂ =>
    cases h
    exact ⟨s₂, rfl, rfl⟩

theorem leads_of_obey (h : s.obey kernels command = .ok s₁) : s.tape.Leads s₁.tape := by
  cases command with
  | read id =>
    cases h
    exact .refl
  | shrink =>
    obtain ⟨t, ht, h⟩ := exists_of_bind_eq_ok h
    cases h
    exact .act (.shrink (attempt_eq_ok ht))
  | tangentSweep start stop =>
    obtain ⟨s₂, hs₂, ht⟩ := eq_ok_of_resume h
    rw [ht]
    exact .act (.tangentSweep hs₂)
  | adjointSweep start stop =>
    obtain ⟨s₂, hs₂, ht⟩ := eq_ok_of_resume h
    rw [ht]
    exact .act (.adjointSweep hs₂)
  | clear =>
    obtain ⟨s₂, hs₂, ht⟩ := eq_ok_of_resume h
    rw [ht]
    exact .act (.clear hs₂)
  | set id x =>
    cases h
    change s.tape.Leads (s.tape.setGradient id x)
    rw [Tape.setGradient, Vectors.setGradient_eq]
    exact .act (.seed s.tape _)
  | _ =>
    cases h
    exact .act (.seed s.tape _)

namespace UpToLength

theorem resume (h : s.UpToLength s') {e e' : Except (Halt F) (Traced F)}
    (he : Tandem UpToLength e e') : Tandem UpToLength (s.resume e) (s'.resume e') := by
  cases he with
  | @ok s₂ s₂' hs => exact .ok ⟨hs.tape, congrArg₂ (· ++ ·) h.notes_eq hs.notes_eq⟩
  | error halt =>
    rw [Traced.resume, Traced.resume, h.notes_eq]
    exact .error _

theorem note (h : s.UpToLength s') {t u : Tape F} (htu : t.UpToLength u) (note : Note F) :
    UpToLength ⟨t, s.notes ++ [note]⟩ ⟨u, s'.notes ++ [note]⟩ :=
  ⟨htu, congrArg (· ++ [note]) h.notes_eq⟩

theorem obey (h : s.UpToLength s') (hs : s.tape.Grounded) (hfits : command.Fits s.tape s'.tape) :
    Tandem UpToLength (s.obey kernels command) (s'.obey kernels command) := by
  cases command with
  | set id x =>
    exact .ok (h.mapTape (h.tape.withVectors (h.tape.vectors.touch (.setGradient id x))))
  | access id f =>
    rw [Traced.obey, Traced.obey, h.tape.adjoints.slot_eq]
    exact .ok (h.note (h.tape.withAdjoints (h.tape.adjoints.set hfits _)) _)
  | read id =>
    rw [Traced.obey, Traced.obey, h.tape.gradient_eq]
    exact .ok (h.note h.tape _)
  | zero => exact .ok (h.mapTape (h.tape.withAdjoints (.zeroAll ..)))
  | shrink =>
    exact (h.attempt (Tape.shrink_upToLength h.tape)).bind fun t u htu => .ok ⟨htu, h.notes_eq⟩
  | resize n =>
    obtain ⟨ht, hu⟩ := hfits
    exact .ok ⟨h.tape.withAdjoints (h.tape.adjoints.resize ht hu), h.notes_eq⟩
  | tangentSweep start stop => exact h.resume (Tape.tangentSweep_upToLength hs h.tape start stop)
  | adjointSweep start stop => exact h.resume (Tape.adjointSweep_upToLength hs h.tape start stop)
  | clear => exact h.resume (Tape.clear_upToLength h.tape)

end UpToLength

def FitAll (kernels : Kernels F) :
    Traced F → Traced F → List (DerivativeCommand F) → Prop
  | _, _, [] => True
  | s, s', command :: commands => command.Fits s.tape s'.tape ∧
    ∀ s₁ s₁', s.obey kernels command = .ok s₁ → s'.obey kernels command = .ok s₁' →
      FitAll kernels s₁ s₁' commands

variable {commands : List (DerivativeCommand F)}

theorem FitAll.take (h : FitAll kernels s s' commands) (k : Nat) :
    FitAll kernels s s' (commands.take k) := by
  induction commands generalizing s s' k with
  | nil =>
    rw [List.take_nil]
    trivial
  | cons command commands ih =>
    cases k with
    | zero => trivial
    | succ k => exact ⟨h.1, fun s₁ s₁' h₁ h₁' => ih (h.2 s₁ s₁' h₁ h₁') k⟩

theorem obeyAll_upToLength (h : s.UpToLength s') (hs : s.tape.Grounded)
    (hfits : FitAll kernels s s' commands) :
    Tandem UpToLength (commands.foldlM (obey kernels) s) (commands.foldlM (obey kernels) s') := by
  induction commands generalizing s s' with
  | nil => exact .ok h
  | cons command commands ih =>
    have hstep : Tandem UpToLength (s.obey kernels command) (s'.obey kernels command) :=
      h.obey hs hfits.1
    have hnext := hfits.2
    rw [List.foldlM_cons, List.foldlM_cons]
    generalize he : s.obey kernels command = e at hstep hnext
    generalize s'.obey kernels command = e' at hstep hnext
    cases hstep with
    | error halt => exact .error halt
    | @ok s₁ s₁' h₁ => exact ih h₁ ((leads_of_obey he).grounded hs) (hnext s₁ s₁' rfl rfl)

end Traced

namespace Slots

def get? (v : Slots F) (id : Identifier) : Option F := v.toList[id]? <|> v.toList[0]?

def modify? (v : Slots F) (id : Identifier) (f : F → F) : Option (List F) :=
  let xs := (v.ensure id).toList
  xs[id]?.map fun x => xs.set id (f x)

omit [Scalar F] in
theorem get?_eq (v : Slots F) (id : Identifier) : v.get? id = some (v.get id) := by
  cases id with
  | zero => rfl
  | succ n =>
    rw [get?, get, toList, List.getElem?_cons_succ, List.getD_eq_getElem?_getD]
    cases v.rest[n]? <;> rfl

theorem getElem?_toList_ensure (v : Slots F) (id : Identifier) :
    (v.ensure id).toList[id]? = some (v.slot id) := by
  have hlt : id < (v.ensure id).size := by
    rw [size_ensure]
    exact (Nat.lt_succ_self id).trans_le (le_max_right ..)
  rw [← slot_ensure v id id]
  generalize v.ensure id = w at hlt
  cases id with
  | zero => rfl
  | succ n =>
    have hn : n < w.rest.length := Nat.lt_of_succ_lt_succ hlt
    rw [toList, List.getElem?_cons_succ, slot, List.getElem?_eq_getElem hn,
      List.getD_eq_getElem _ _ hn]

theorem modify?_eq (v : Slots F) (id : Identifier) (f : F → F) :
    v.modify? id f = some (v.modify id f).toList := by
  rw [modify?, getElem?_toList_ensure]
  cases id <;> rfl

theorem get_resize {v : Slots F} (hz : v.get passive = 0) (n : Nat) (id : Identifier) :
    (v.resize n).get id = if id < max n 1 then v.get id else 0 := by
  have hv : v.slot passive = 0 := hz
  rw [get_eq_slot hv, get_eq_slot ((slot_resize_passive v n).trans hv), slot_resize]

end Slots

namespace Traced

variable {kernels : Kernels F} {commands : List (DerivativeCommand F)}

/-- The two tapes stay one map whatever is done to both. A vector that is cut off reads zero from
there on, and no place is missing where one is looked for. -/
theorem length_unseen {policy : Policy} {kind : TapeKind} {t u : Tape F}
    (ht : (Tape.new policy kind).Leads t) (h : t.UpToLength u)
    (hfits : FitAll kernels ⟨t, []⟩ ⟨u, []⟩ commands) :
    (∀ k, Tandem UpToLength ((commands.take k).foldlM (obey kernels) ⟨t, []⟩)
        ((commands.take k).foldlM (obey kernels) ⟨u, []⟩)) ∧
      (∀ (v : Slots F) (n : Nat) (id : Identifier), v.get passive = 0 →
        (v.resize n).get id = if id < max n 1 then v.get id else 0) ∧
      ∀ (v : Slots F) (id : Identifier) (f : F → F),
        v.get? id = some (v.get id) ∧ v.modify? id f = some (v.modify id f).toList := by
  refine ⟨fun k => ?_, fun v n id hz => Slots.get_resize hz n id, fun v id f => ?_⟩
  · exact obeyAll_upToLength ⟨h, rfl⟩ (ht.grounded (Tape.grounded_new ..)) (hfits.take k)
  · exact ⟨v.get?_eq id, v.modify?_eq id f⟩

def squared : Tape Int :=
  (((Tape.new .reuse .primalValues).issue.2.addArgument 1 6).closeStatement passive 9).2

theorem new_leads_squared : (Tape.new .reuse .primalValues).Leads squared :=
  ((Tape.Leads.act (.issue _)).trans (Tape.Leads.act (.addArgument _ 1 6))).trans
    (Tape.Leads.act (.closeStatement _ passive 9))

def stretching : List (DerivativeCommand Int) :=
  [.access 2 (· + 1), .set 11 4, .adjointSweep .zero ⟨1, 0, 2⟩, .resize 15, .read 40, .clear]

theorem length_unseen_stretching :
    FitAll (fun _ => none) ⟨squared, []⟩ ⟨squared.withAdjoints (.ofSize 9), []⟩ stretching ∧
      ∀ k, Tandem UpToLength ((stretching.take k).foldlM (obey fun _ => none) ⟨squared, []⟩)
        ((stretching.take k).foldlM (obey fun _ => none)
          ⟨squared.withAdjoints (.ofSize 9), []⟩) := by
  have hmap : squared.UpToLength (squared.withAdjoints (.ofSize 9)) := by
    apply Tape.UpToLength.mk_withAdjoints
    exact .of_slot_eq (Slots.slot_resize_of_size_le (by decide)) rfl
  have hfits : FitAll (fun _ => none) ⟨squared, []⟩ ⟨squared.withAdjoints (.ofSize 9), []⟩
      stretching := by
    refine ⟨nofun, fun s₁ s₁' h₁ h₁' => ?_⟩
    cases h₁
    cases h₁'
    refine ⟨trivial, fun s₁ s₁' h₁ h₁' => ?_⟩
    cases h₁
    cases h₁'
    refine ⟨trivial, fun s₁ s₁' h₁ h₁' => ?_⟩
    cases h₁
    cases h₁'
    refine ⟨⟨by decide, by decide⟩, fun s₁ s₁' h₁ h₁' => ?_⟩
    exact ⟨trivial, fun _ _ _ _ => ⟨trivial, fun _ _ _ _ => trivial⟩⟩
  exact ⟨hfits, (length_unseen new_leads_squared hmap hfits).1⟩

end Traced

end Autodiff
