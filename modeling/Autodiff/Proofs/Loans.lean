import Autodiff.Proofs.Accounting
import Autodiff.Proofs.Restoration

namespace Autodiff

variable {F : Type}

def Fault.OfPool : Fault → Prop
  | bufferNotLent | shrinkWhileLent | buffersNotReturned => True
  | _ => False

@[ext]
structure Loans where
  values : Nat
  identifiers : Nat
  deriving DecidableEq, Repr

namespace Loans

instance : Zero Loans := ⟨⟨0, 0⟩⟩

instance : Add Loans := ⟨fun k l => ⟨k.values + l.values, k.identifiers + l.identifiers⟩⟩

@[simp] theorem values_add (k l : Loans) : (k + l).values = k.values + l.values := rfl

@[simp] theorem identifiers_add (k l : Loans) :
    (k + l).identifiers = k.identifiers + l.identifiers := rfl

instance : AddCommMonoid Loans where
  add_assoc j k l := Loans.ext (Nat.add_assoc ..) (Nat.add_assoc ..)
  zero_add l := Loans.ext (Nat.zero_add _) (Nat.zero_add _)
  add_zero _ := rfl
  add_comm k l := Loans.ext (Nat.add_comm ..) (Nat.add_comm ..)
  nsmul := nsmulRec

def count (l : Loans) : Nat := l.values + l.identifiers

def ofArrays (n : Nat) : Loans := ⟨3 * n, n⟩

theorem count_add (k l : Loans) : (k + l).count = k.count + l.count := by
  simp only [count, values_add, identifiers_add]
  omega

theorem ofArrays_succ (n : Nat) : ofArrays (n + 1) = ofArrays n + ofArrays 1 := by
  ext <;> simp [ofArrays, Nat.mul_add]

theorem balance_trans {l l' l'' taken returned taken' returned' : Loans}
    (h : l + taken = returned + l') (h' : l' + taken' = returned' + l'') :
    l + (taken + taken') = returned + returned' + l'' := by
  rw [← add_assoc, h, add_assoc, h', add_assoc]

end Loans

namespace Action

def taken : Action F → Loans
  | lendValues _ => ⟨1, 0⟩
  | lendIdentifiers _ => ⟨0, 1⟩
  | _ => 0

def returned : Action F → Loans
  | returnValues _ => ⟨1, 0⟩
  | returnIdentifiers _ => ⟨0, 1⟩
  | _ => 0

def Detached : Action F → Prop
  | lendValues _ | lendIdentifiers _ | returnValues _ | returnIdentifiers _ | poolIdle => False
  | _ => True

variable {a : Action F}

theorem Detached.taken_eq (h : a.Detached) : a.taken = 0 := by
  cases a with
  | lendValues => exact h.elim
  | lendIdentifiers => exact h.elim
  | _ => rfl

theorem Detached.returned_eq (h : a.Detached) : a.returned = 0 := by
  cases a with
  | returnValues => exact h.elim
  | returnIdentifiers => exact h.elim
  | _ => rfl

end Action

namespace Program

variable {α β : Type} {Q : α → Prop} {S : β → Prop} {p : Program F α}

def Detached (Q : α → Prop) : Program F α → Prop
  | pure x => Q x
  | fail fault => ¬ fault.OfPool
  | perform a next => a.Detached ∧ ∀ x, (next x).Detached Q

theorem Detached.bind {f : α → Program F β} (h : p.Detached Q) (hf : ∀ x, Q x → (f x).Detached S) :
    (p >>= f).Detached S := by
  change (p.bind f).Detached S
  induction p with
  | pure x => exact hf x h
  | fail fault => exact h
  | perform a next ih => exact ⟨h.1, fun x => ih x (h.2 x)⟩

theorem Detached.mono {R : α → Prop} (h : p.Detached Q) (hQ : ∀ x, Q x → R x) : p.Detached R := by
  induction p with
  | pure x => exact hQ x h
  | fail fault => exact h
  | perform a next ih => exact ⟨h.1, fun x => ih x (h.2 x)⟩

theorem detached_act {a : Action F} (h : a.Detached) : (act a).Detached fun _ => True :=
  ⟨h, fun _ => trivial⟩

end Program

section Runs

variable [Scalar F]

namespace Program

variable {α β : Type}

def tally (f : Action F → Loans) (r : Replay F) : Program F α → Loans
  | pure _ => 0
  | fail _ => 0
  | perform a next =>
    match a.perform r with
    | .ok (x, r) => f a + (next x).tally f r
    | .error _ => 0

def taken (p : Program F α) (r : Replay F) : Loans := p.tally Action.taken r

def returned (p : Program F α) (r : Replay F) : Loans := p.tally Action.returned r

theorem tally_bind_ok {f : Action F → Loans} {r r' : Replay F} {p : Program F α} {x : α}
    (h : p.run r = .ok (x, r')) (g : α → Program F β) :
    (p.bind g).tally f r = p.tally f r + (g x).tally f r' := by
  induction p generalizing r with
  | pure y =>
    cases h
    exact (zero_add _).symm
  | fail fault => cases h
  | perform a next ih =>
    rw [run] at h
    rw [bind, tally, tally]
    cases ha : a.perform r with
    | error fault =>
      rw [ha] at h
      cases h
    | ok s =>
      rw [ha] at h
      dsimp only at h ⊢
      rw [ih s.1 h, add_assoc]

theorem tally_bind_error {f : Action F → Loans} {r : Replay F} {p : Program F α} {halt : Halt F}
    (h : p.run r = .error halt) (g : α → Program F β) : (p.bind g).tally f r = p.tally f r := by
  induction p generalizing r with
  | pure y => cases h
  | fail fault => rfl
  | perform a next ih =>
    rw [run] at h
    rw [bind, tally, tally]
    cases ha : a.perform r with
    | error fault => rfl
    | ok s =>
      rw [ha] at h
      dsimp only at h ⊢
      rw [ih s.1 h]

/-- The program begins with the buffers `l` on loan, next to `base` others, and the loans it ends
with have the property: what it took and what it returned make up the difference. Where it ends in a
fault of the pool, there were others, and it has returned all its own. -/
def Borrows (base : Nat) (l : Loans) (p : Program F α) (Q : α → Loans → Prop) : Prop :=
  ∀ r : Replay F, r.pool.lent = base + l.count →
    match p.run r with
    | .ok (x, r') => ∃ l', Q x l' ∧ r'.pool.lent = base + l'.count ∧
        l + p.taken r = p.returned r + l'
    | .error halt => halt.fault.OfPool → base ≠ 0 ∧ l + p.taken r = p.returned r

variable {base : Nat} {l : Loans}

theorem borrows_pure {x : α} {Q : α → Loans → Prop} (h : Q x l) :
    Borrows (F := F) base l (Pure.pure x) Q :=
  fun _ hr => ⟨l, h, hr, add_comm l 0⟩

namespace Borrows

variable {Q R : α → Loans → Prop} {p : Program F α}

theorem mono (h : p.Borrows base l Q) (hQ : ∀ x l', Q x l' → R x l') : p.Borrows base l R := by
  intro r hr
  have hrun := h r hr
  cases hp : p.run r with
  | ok s =>
    rw [hp] at hrun
    obtain ⟨l', hl', hlent, hbalance⟩ := hrun
    exact ⟨l', hQ _ _ hl', hlent, hbalance⟩
  | error halt =>
    rw [hp] at hrun
    exact hrun

theorem bind {f : α → Program F β} {S : β → Loans → Prop} (h : p.Borrows base l Q)
    (hf : ∀ x l', Q x l' → (f x).Borrows base l' S) : (p >>= f).Borrows base l S := by
  intro r hr
  change match (p.bind f).run r with
    | .ok (x, r') => ∃ l', S x l' ∧ r'.pool.lent = base + l'.count ∧
        l + (p.bind f).tally Action.taken r = (p.bind f).tally Action.returned r + l'
    | .error halt => halt.fault.OfPool → base ≠ 0 ∧
        l + (p.bind f).tally Action.taken r = (p.bind f).tally Action.returned r
  have hrun := h r hr
  rw [run_bind]
  cases hp : p.run r with
  | error halt =>
    rw [hp] at hrun
    rw [tally_bind_error hp, tally_bind_error hp]
    exact hrun
  | ok s =>
    obtain ⟨x, r'⟩ := s
    rw [hp] at hrun
    obtain ⟨l', hl', hlent, hbalance⟩ := hrun
    have hrest := hf x l' hl' r' hlent
    rw [tally_bind_ok hp, tally_bind_ok hp]
    change match (f x).run r' with
      | .ok (x, r') => _
      | .error halt => _
    cases hq : (f x).run r' with
    | error halt =>
      rw [hq] at hrest
      intro hfault
      obtain ⟨hbase, hrest⟩ := hrest hfault
      have htrans := Loans.balance_trans hbalance (hrest.trans (add_zero _).symm)
      exact ⟨hbase, htrans⟩
    | ok s =>
      rw [hq] at hrest
      obtain ⟨l'', hl'', hlent', hrest⟩ := hrest
      exact ⟨l'', hl'', hlent', Loans.balance_trans hbalance hrest⟩

end Borrows

theorem borrows_act {a : Action F} {Q : a.Result → Loans → Prop}
    (h : ∀ r : Replay F, r.pool.lent = base + l.count → Avoids Fault.OfPool (a.perform r) fun s =>
      ∃ l', Q s.1 l' ∧ s.2.pool.lent = base + l'.count ∧ l + a.taken = a.returned + l') :
    (act a).Borrows base l Q := by
  intro r hr
  have ha := h r hr
  simp only [act, run, taken, returned, tally]
  cases hs : a.perform r with
  | error fault =>
    rw [hs] at ha
    exact fun hfault => absurd hfault ha
  | ok s =>
    rw [hs] at ha
    exact ha

end Program

theorem Action.Detached.perform_avoids {a : Action F} (h : a.Detached) (r : Replay F) :
    Avoids Fault.OfPool (a.perform r) fun s => s.2.pool = r.pool := by
  have htake (side : Side) (count : Nat) :
      Avoids Fault.OfPool ((r.reader side).take count) fun _ => True := .ite trivial id
  have hpool (side : Side) (reader : Reader F) : (r.withReader side reader).pool = r.pool := by
    cases side <;> rfl
  cases a with
  | read side ty =>
    have hread : Avoids Fault.OfPool ((r.reader side).read ty) fun _ => True :=
      (htake side _).bind fun _ _ => trivial
    exact hread.bind fun _ _ => hpool side _
  | readMany side ty count =>
    have hread : Avoids Fault.OfPool ((r.reader side).readMany ty count) fun _ => True :=
      (htake side _).bind fun _ _ => trivial
    exact hread.bind fun _ _ => hpool side _
  | finish side =>
    have hfinish : Avoids Fault.OfPool (r.reader side).finish fun _ => True := .ite trivial id
    exact hfinish.bind fun _ _ => rfl
  | lendValues => exact h.elim
  | lendIdentifiers => exact h.elim
  | returnValues => exact h.elim
  | returnIdentifiers => exact h.elim
  | poolIdle => exact h.elim
  | _ => exact rfl

namespace Program

variable {α : Type} {base : Nat} {l : Loans}

theorem Detached.borrows {Q : α → Prop} {p : Program F α} (h : p.Detached Q) :
    p.Borrows base l fun x l' => Q x ∧ l' = l := by
  induction p with
  | pure x => exact borrows_pure ⟨h, rfl⟩
  | fail fault => exact fun _ _ hfault => absurd hfault h
  | perform a next ih =>
    have ha : (act a).Borrows base l fun _ l' => l' = l := by
      refine borrows_act fun r hr => (h.1.perform_avoids r).mono fun s hs => ?_
      refine ⟨l, rfl, by rw [hs, hr], ?_⟩
      rw [h.1.taken_eq, h.1.returned_eq, zero_add, add_zero]
    refine ha.bind fun x l' hl' => ?_
    rw [hl']
    exact ih x (h.2 x)

theorem borrows_lendIdentifiers (n : Nat) :
    (act (.lendIdentifiers n) : Program F _).Borrows base l fun _ l' => l' = l + ⟨0, 1⟩ :=
  borrows_act fun _ hr => ⟨_, rfl, congrArg (· + 1) hr, (zero_add _).symm⟩

theorem borrows_lendValues (n : Nat) :
    (act (.lendValues n) : Program F _).Borrows base l fun _ l' => l' = l + ⟨1, 0⟩ := by
  refine borrows_act fun r hr => ⟨_, rfl, ?_, (zero_add _).symm⟩
  change r.pool.lent + 1 = _
  simp only [hr, Loans.count, Loans.values_add, Loans.identifiers_add]
  omega

theorem borrows_returnIdentifiers (b : Buffer Identifier) :
    (act (.returnIdentifiers b) : Program F _).Borrows base (l + ⟨0, 1⟩) fun _ l' => l' = l := by
  refine borrows_act fun r hr => ?_
  have hreturn := Pool.returnIdentifiers_yields b (hr : r.pool.lent = base + l.count + 1)
  exact (Avoids.of_yields hreturn).bind fun pool hpool =>
    ⟨l, rfl, hpool, (add_zero _).trans (add_comm ..)⟩

theorem borrows_returnValues (b : Buffer F) :
    (act (.returnValues b) : Program F _).Borrows base (l + ⟨1, 0⟩) fun _ l' => l' = l := by
  refine borrows_act fun r hr => ?_
  rw [Loans.count_add] at hr
  have hreturn := Pool.returnValues_yields b (hr : r.pool.lent = base + l.count + 1)
  exact (Avoids.of_yields hreturn).bind fun pool hpool =>
    ⟨l, rfl, hpool, (add_zero _).trans (add_comm ..)⟩

theorem borrows_poolIdle :
    (act .poolIdle : Program F _).Borrows base l fun idle l' =>
      idle = (base + l.count == 0) ∧ l' = l :=
  borrows_act fun _ hr => ⟨l, ⟨congrArg (· == 0) hr, rfl⟩, hr, add_comm ..⟩

theorem borrows_lendStaged (i v g o : Nat) :
    (lendStaged (F := F) i v g o).Borrows base l fun _ l' => l' = l + .ofArrays 1 := by
  refine (borrows_lendIdentifiers i).bind fun ids _ h₁ => ?_
  refine (borrows_lendValues v).bind fun vs _ h₂ => ?_
  refine (borrows_lendValues g).bind fun gs _ h₃ => ?_
  refine (borrows_lendValues o).bind fun os _ h₄ => borrows_pure ?_
  rw [h₄, h₃, h₂, h₁, add_assoc, add_assoc, add_assoc]
  rfl

theorem borrows_reclaim (a : Staged F) :
    (reclaim a).Borrows base (l + .ofArrays 1) fun _ l' => l' = l := by
  have hone : l + .ofArrays 1 = l + ⟨1, 0⟩ + ⟨1, 0⟩ + ⟨1, 0⟩ + ⟨0, 1⟩ := by
    rw [add_assoc, add_assoc, add_assoc]
    rfl
  rw [hone]
  refine (borrows_returnIdentifiers _).bind fun _ _ h₁ => ?_
  rw [h₁]
  refine (borrows_returnValues _).bind fun _ _ h₂ => ?_
  rw [h₂]
  refine (borrows_returnValues _).bind fun _ _ h₃ => ?_
  rw [h₃]
  exact borrows_returnValues _

theorem borrows_reclaimAll (as : List (Staged F)) :
    (reclaimAll as).Borrows base (l + .ofArrays as.length) fun _ l' => l' = l := by
  induction as with
  | nil => exact borrows_pure rfl
  | cons a as ih =>
    rw [List.length_cons, Loans.ofArrays_succ, ← add_assoc]
    refine (borrows_reclaim a).bind fun _ l' hl' => ?_
    rw [hl']
    exact ih

end Program

end Runs

end Autodiff
