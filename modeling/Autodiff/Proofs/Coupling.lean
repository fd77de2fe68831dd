import Autodiff.Proofs.Mirrors

namespace Autodiff

section Computations

variable {ε ε' α β γ δ : Type} {E : ε → ε' → Prop} {R : α → β → Prop} {S : γ → δ → Prop}
  {e : Except ε α} {e' : Except ε' β}

inductive Coupled (E : ε → ε' → Prop) (R : α → β → Prop) : Except ε α → Except ε' β → Prop
  | ok {x y} (h : R x y) : Coupled E R (.ok x) (.ok y)
  | error {f g} (h : E f g) : Coupled E R (.error f) (.error g)

/-- Related, and the same where nothing sets them apart. With `False` for `apart` this compares a run
with itself, for which nothing has to be known of what its callbacks look at. -/
def Near (apart : Prop) (R : α → α → Prop) (x y : α) : Prop := R x y ∧ (¬ apart → y = x)

namespace Coupled

theorem mono {E' : ε → ε' → Prop} {R' : α → β → Prop} (h : Coupled E R e e')
    (hE : ∀ f g, E f g → E' f g) (hR : ∀ x y, R x y → R' x y) : Coupled E' R' e e' := by
  cases h with
  | ok h => exact .ok (hR _ _ h)
  | error h => exact .error (hE _ _ h)

theorem bind {f : α → Except ε γ} {g : β → Except ε' δ} (h : Coupled E R e e')
    (hfg : ∀ x y, R x y → Coupled E S (f x) (g y)) : Coupled E S (e >>= f) (e' >>= g) := by
  cases h with
  | ok h => exact hfg _ _ h
  | error h => exact .error h

theorem map {f : α → γ} {g : β → δ} (h : Coupled E R e e') (hfg : ∀ x y, R x y → S (f x) (g y)) :
    Coupled E S (f <$> e) (g <$> e') := by
  cases h with
  | ok h => exact .ok (hfg _ _ h)
  | error h => exact .error h

theorem foldlM {step : α → γ → Except ε α} {step' : β → γ → Except ε' β} {xs : List γ} {x : α}
    {y : β} (hstep : ∀ c ∈ xs, ∀ x y, R x y → Coupled E R (step x c) (step' y c)) (h : R x y) :
    Coupled E R (xs.foldlM step x) (xs.foldlM step' y) := by
  induction xs generalizing x y with
  | nil => exact .ok h
  | cons c xs ih =>
    rw [List.foldlM_cons, List.foldlM_cons]
    refine (hstep c List.mem_cons_self x y h).bind fun x₁ y₁ h₁ => ?_
    exact ih (fun c hc => hstep c (List.mem_cons_of_mem _ hc)) h₁

theorem and {P : α → Prop} {Q : ε → Prop} (h : Coupled E R e e') (hok : ∀ x, e = .ok x → P x)
    (herror : ∀ f, e = .error f → Q f) :
    Coupled (fun f g => E f g ∧ Q f) (fun x y => R x y ∧ P x) e e' := by
  cases h with
  | ok h => exact .ok ⟨h, hok _ rfl⟩
  | error h => exact .error ⟨h, herror _ rfl⟩

theorem near {apart : Prop} {E : ε → ε → Prop} {R : α → α → Prop} {e e' : Except ε α}
    (h : Coupled E R e e') (heq : ¬ apart → e' = e) : Coupled E (Near apart R) e e' := by
  cases h with
  | ok h => exact .ok ⟨h, fun hapart => Except.ok.inj (heq hapart)⟩
  | error h => exact .error h

end Coupled

end Computations

section Lists

variable {α β : Type} {R : α → β → Prop} {xs : List α} {ys : List β}

theorem forall₂_getD (h : List.Forall₂ R xs ys) {x : α} {y : β} (hxy : R x y) (i : Nat) :
    R (xs.getD i x) (ys.getD i y) := by
  induction h generalizing i with
  | nil => exact hxy
  | cons h _ ih =>
    cases i with
    | zero => exact h
    | succ i => exact ih i

theorem forall₂_modify (h : List.Forall₂ R xs ys) {f : α → α} {g : β → β}
    (hfg : ∀ x y, R x y → R (f x) (g y)) (i : Nat) :
    List.Forall₂ R (xs.modify i f) (ys.modify i g) := by
  induction h generalizing i with
  | nil =>
    rw [List.modify_nil, List.modify_nil]
    exact .nil
  | cons h hrest ih =>
    cases i with
    | zero => exact .cons (hfg _ _ h) hrest
    | succ i => exact .cons h (ih i)

end Lists

variable {F : Type} [Scalar F]

structure Halt.Alike (h h' : Halt F) : Prop where
  fault_eq : h'.fault = h.fault
  notes : List.Forall₂ Note.Alike h.notes h'.notes

def Halt.Agree (h h' : Halt F) : Prop := h.Alike h' ∧ ¬ h.fault.OfPool

structure Replay.UpToPool (r r' : Replay F) : Prop where
  alike : r.Alike Eq r'
  notes : List.Forall₂ Note.Alike r.notes r'.notes

section Runs

variable {r r' : Replay F}

omit [Scalar F] in
theorem Note.alike_refl (notes : List (Note F)) : List.Forall₂ Note.Alike notes notes :=
  List.forall₂_same.mpr fun note _ => .refl note

theorem Replay.UpToPool.refl (r : Replay F) : r.UpToPool r :=
  ⟨⟨rfl, rfl, rfl, rfl, rfl⟩, Note.alike_refl _⟩

theorem Replay.UpToPool.report (h : r.UpToPool r') {note note' : Note F} (hnote : note.Alike note') :
    Replay.UpToPool { r with notes := r.notes ++ [note] }
      { r' with notes := r'.notes ++ [note'] } where
  alike := ⟨h.alike.traits_eq, h.alike.fixed_eq, h.alike.dynamic_eq, h.alike.lent_eq,
    h.alike.vectors⟩
  notes := List.rel_append h.notes (.cons hnote .nil)

theorem Replay.UpToPool.withPool (h : r.UpToPool r') {pool pool' : Pool F}
    (hl : pool'.lent = pool.lent) : (r.withPool pool).UpToPool (r'.withPool pool') :=
  ⟨h.alike.withPool hl, h.notes⟩

theorem Replay.UpToPool.withVectors (h : r.UpToPool r') (v : Vectors F) :
    (r.withVectors v).UpToPool (r'.withVectors v) := ⟨h.alike.withVectors rfl, h.notes⟩

theorem Replay.UpToPool.withReader (h : r.UpToPool r') (side : Side) (reader : Reader F) :
    (r.withReader side reader).UpToPool (r'.withReader side reader) := by
  refine ⟨h.alike.withReader side reader, ?_⟩
  cases side <;> exact h.notes

namespace Action

theorem returnIdentifiers_coupled (h : r.UpToPool r') (b b' : Buffer Identifier) :
    Coupled Eq (fun x y => x.2.UpToPool y.2) ((returnIdentifiers b : Action F).perform r)
      ((returnIdentifiers b').perform r') := by
  have hreturn : Coupled Eq (fun p p' : Pool F => p'.lent = p.lent) (r.pool.returnIdentifiers b)
      (r'.pool.returnIdentifiers b') := by
    rw [Pool.returnIdentifiers, Pool.returnIdentifiers, h.alike.lent_eq]
    split
    · exact .error rfl
    · exact .ok rfl
  exact hreturn.bind fun _ _ hl => .ok (h.withPool hl)

theorem returnValues_coupled (h : r.UpToPool r') (b b' : Buffer F) :
    Coupled Eq (fun x y => x.2.UpToPool y.2) ((returnValues b).perform r)
      ((returnValues b').perform r') := by
  have hreturn : Coupled Eq (fun p p' : Pool F => p'.lent = p.lent) (r.pool.returnValues b)
      (r'.pool.returnValues b') := by
    rw [Pool.returnValues, Pool.returnValues, h.alike.lent_eq]
    split
    · exact .error rfl
    · exact .ok rfl
  exact hreturn.bind fun _ _ hl => .ok (h.withPool hl)

theorem perform_coupled (h : r.UpToPool r') (a : Action F) :
    Coupled Eq (fun x y => a.Alike x.1 y.1 ∧ x.2.UpToPool y.2) (a.perform r) (a.perform r') := by
  have hvectors : r'.vectors = r.vectors := h.alike.vectors.symm
  have hreader {α : Type} (side : Side) (e : Except Fault (α × Reader F)) :
      Coupled Eq (fun x y => x.1 = y.1 ∧ x.2.UpToPool y.2)
        (e >>= fun s => pure (s.1, r.withReader side s.2))
        (e >>= fun s => pure (s.1, r'.withReader side s.2)) := by
    cases e with
    | error => exact .error rfl
    | ok s => exact .ok ⟨rfl, h.withReader side s.2⟩
  cases a with
  | traits => exact .ok ⟨h.alike.traits_eq.symm, h⟩
  | read side ty =>
    rw [perform, perform, h.alike.reader_eq]
    exact hreader side _
  | readMany side ty count =>
    rw [perform, perform, h.alike.reader_eq]
    exact hreader side _
  | remaining side => exact .ok ⟨congrArg Reader.remaining (h.alike.reader_eq side).symm, h⟩
  | finish side =>
    rw [perform, perform, h.alike.reader_eq]
    cases (r.reader side).finish with
    | error => exact .error rfl
    | ok => exact .ok ⟨rfl, h⟩
  | lendIdentifiers n => exact .ok ⟨rfl, h.withPool (congrArg (· + 1) h.alike.lent_eq)⟩
  | lendValues n => exact .ok ⟨rfl, h.withPool (congrArg (· + 1) h.alike.lent_eq)⟩
  | returnIdentifiers b =>
    exact (returnIdentifiers_coupled h b b).mono (fun _ _ => id) fun _ _ hr => ⟨rfl, hr⟩
  | returnValues b =>
    exact (returnValues_coupled h b b).mono (fun _ _ => id) fun _ _ hr => ⟨rfl, hr⟩
  | poolIdle => exact .ok ⟨congrArg (· == 0) h.alike.lent_eq.symm, h⟩
  | gradient id => exact .ok ⟨congrArg (Vectors.gradient · id) h.alike.vectors, h⟩
  | setGradient id x =>
    rw [perform, perform, hvectors]
    exact .ok ⟨rfl, h.withVectors _⟩
  | addGradient id x =>
    rw [perform, perform, hvectors]
    exact .ok ⟨rfl, h.withVectors _⟩
  | takeGradient id =>
    rw [perform, perform, hvectors]
    exact .ok ⟨rfl, h.withVectors _⟩
  | hasPrimals => exact .ok ⟨congrArg Vectors.hasPrimals h.alike.vectors, h⟩
  | primal id => exact .ok ⟨congrArg (Vectors.primal · id) h.alike.vectors, h⟩
  | setPrimal id x =>
    rw [perform, perform, hvectors]
    exact .ok ⟨rfl, h.withVectors _⟩
  | report note => exact .ok ⟨rfl, h.report (.refl note)⟩

end Action

namespace Program

variable {α β : Type} {R : α → β → Prop} {p : Program F α} {q : Program F β}

theorem coupled_perform {a a' : Action F} {next : a.Result → Program F α}
    {next' : a'.Result → Program F β} {S : a.Result × Replay F → a'.Result × Replay F → Prop}
    {T : α × Replay F → β × Replay F → Prop} (h : r.UpToPool r')
    (ha : Coupled Eq S (a.perform r) (a'.perform r'))
    (hnext : ∀ s s', S s s' → Coupled Halt.Alike T ((next s.1).run s.2) ((next' s'.1).run s'.2)) :
    Coupled Halt.Alike T ((perform a next).run r) ((perform a' next').run r') := by
  rw [run, run]
  generalize a.perform r = e at ha
  generalize a'.perform r' = e' at ha
  cases ha with
  | ok hs => exact hnext _ _ hs
  | error heq => exact .error ⟨heq.symm, h.notes⟩

theorem Mirrors.run_coupled (hp : p.Mirrors R q) (h : r.UpToPool r') :
    Coupled Halt.Alike (fun x y => R x.1 y.1 ∧ x.2.UpToPool y.2) (p.run r) (q.run r') := by
  induction hp generalizing r r' with
  | pure hxy => exact .ok ⟨hxy, h⟩
  | fail fault => exact .error ⟨rfl, h.notes⟩
  | perform a _ ih =>
    exact coupled_perform h (Action.perform_coupled h a) fun _ _ hs => ih _ _ hs.1 hs.2
  | returnIdentifiers b b' _ ih =>
    exact coupled_perform h (Action.returnIdentifiers_coupled h b b') fun _ _ hs => ih hs
  | returnValues b b' _ ih =>
    exact coupled_perform h (Action.returnValues_coupled h b b') fun _ _ hs => ih hs
  | report hnote _ ih => exact ih (h.report hnote)

theorem Orderly.run_coupled {apart : Prop} {p : Program F Unit} (hp : p.Orderly apart)
    (h : Near apart Replay.UpToPool r r') (hlent : r.pool.lent = 0) :
    Coupled Halt.Agree (fun x y => x.2.UpToPool y.2 ∧ x.2.pool.lent = 0) (p.run r) (p.run r') := by
  have hpair : Coupled Halt.Alike (fun x y => x.2.UpToPool y.2) (p.run r) (p.run r') := by
    by_cases hapart : apart
    · exact ((hp.mirrors hapart).run_coupled h.1).mono (fun _ _ => id) fun _ _ hxy => hxy.2
    · rw [h.2 hapart]
      cases p.run r with
      | ok s => exact .ok (.refl s.2)
      | error halt => exact .error ⟨rfl, Note.alike_refl _⟩
  -- That all buffers come back, and that no fault of the pool comes up, is a matter of one run alone.
  have hsettles := hp.settles r
  refine hpair.and (fun s hs => ?_) fun halt hhalt hfault => ?_
  · rw [hs] at hsettles
    exact hsettles.2.trans hlent
  · rw [hhalt] at hsettles
    exact (hsettles hfault).2 hlent

end Program

end Runs

end Autodiff
