import Autodiff.Program

namespace Autodiff

def Yields {ε α : Type} (e : Except ε α) (Q : α → Prop) : Prop := ∃ x, e = .ok x ∧ Q x

namespace Yields

variable {ε α β : Type} {e : Except ε α} {Q R : α → Prop}

theorem ok {x : α} (h : Q x) : Yields (.ok x : Except ε α) Q := ⟨x, rfl, h⟩

theorem mono (h : Yields e Q) (hQ : ∀ x, Q x → R x) : Yields e R := by
  obtain ⟨x, he, hx⟩ := h
  exact ⟨x, he, hQ x hx⟩

theorem bind {f : α → Except ε β} {S : β → Prop} (h : Yields e Q)
    (hf : ∀ x, Q x → Yields (f x) S) : Yields (e >>= f) S := by
  obtain ⟨x, rfl, hx⟩ := h
  exact hf x hx

theorem foldlM {P : β → Prop} {step : β → α → Except ε β} {xs : List α} {b : β}
    (hstep : ∀ x ∈ xs, ∀ c, P c → Yields (step c x) P) (hb : P b) :
    Yields (xs.foldlM step b) P := by
  induction xs generalizing b with
  | nil => exact ok hb
  | cons x xs ih =>
    rw [List.foldlM_cons]
    apply (hstep x List.mem_cons_self b hb).bind
    intro c hc
    exact ih (fun y hy => hstep y (List.mem_cons_of_mem _ hy)) hc

theorem foldlM_pair {δ ζ : Type} {R : β → δ → Prop} {step : β → α → Except ε β}
    {step' : δ → α → Except ζ δ} {xs : List α} {b : β} {d : δ}
    (hstep : ∀ x ∈ xs, ∀ b d, R b d → Yields (step b x) fun b' => Yields (step' d x) (R b'))
    (h : R b d) : Yields (xs.foldlM step b) fun b' => Yields (xs.foldlM step' d) (R b') := by
  induction xs generalizing b d with
  | nil => exact ok (ok h)
  | cons x xs ih =>
    rw [List.foldlM_cons, List.foldlM_cons]
    obtain ⟨b', hb, d', hd, h'⟩ := hstep x List.mem_cons_self b d h
    rw [hb, hd]
    exact ih (fun y hy => hstep y (List.mem_cons_of_mem _ hy)) h'

end Yields

theorem exists_of_bind_eq_ok {ε α β : Type} {e : Except ε α} {f : α → Except ε β} {y : β}
    (h : e >>= f = .ok y) : ∃ x, e = .ok x ∧ f x = .ok y := by
  cases e with
  | error => cases h
  | ok x => exact ⟨x, rfl, h⟩

theorem foldlM_invariant {ε α β : Type} {P : β → Prop} {step : β → α → Except ε β} {xs : List α}
    {b b' : β} (hstep : ∀ x ∈ xs, ∀ c c', P c → step c x = .ok c' → P c') (hb : P b)
    (h : xs.foldlM step b = .ok b') : P b' := by
  induction xs generalizing b with
  | nil =>
    cases h
    exact hb
  | cons x xs ih =>
    rw [List.foldlM_cons] at h
    obtain ⟨c, hc, h⟩ := exists_of_bind_eq_ok h
    apply ih (fun y hy => hstep y (List.mem_cons_of_mem _ hy)) _ h
    exact hstep x List.mem_cons_self b c hb hc

namespace Program

variable {F : Type} [Scalar F] {α β : Type}

def Ensures (p : Program F α) (r : Replay F) (Q : α → Replay F → Prop) : Prop :=
  Yields (p.run r) fun s => Q s.1 s.2

theorem ensures_pure {r : Replay F} {Q : α → Replay F → Prop} {x : α} (h : Q x r) :
    (Pure.pure x : Program F α).Ensures r Q := ⟨(x, r), rfl, h⟩

theorem ensures_act {a : Action F} {r : Replay F} {Q : a.Result → Replay F → Prop}
    (h : Yields (a.perform r) fun s => Q s.1 s.2) : (act a).Ensures r Q := by
  obtain ⟨s, hs, hQ⟩ := h
  exact ⟨s, by simp only [act, run, hs], hQ⟩

namespace Ensures

variable {p : Program F α} {r : Replay F}

theorem mono {Q R : α → Replay F → Prop} (h : p.Ensures r Q) (hQ : ∀ x r', Q x r' → R x r') :
    p.Ensures r R :=
  Yields.mono h fun s => hQ s.1 s.2

theorem bind {f : α → Program F β} {Q : α → Replay F → Prop} {R : β → Replay F → Prop}
    (h : p.Ensures r Q) (hf : ∀ x r', Q x r' → (f x).Ensures r' R) : (p >>= f).Ensures r R := by
  change Yields ((p.bind f).run r) _
  rw [run_bind]
  exact Yields.bind h fun s hs => hf s.1 s.2 hs

end Ensures

end Program

end Autodiff
