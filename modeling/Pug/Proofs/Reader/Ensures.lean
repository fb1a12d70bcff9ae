import Mathlib
import Pug.Reader

/-!
# What a run of a reader ensures

A run ends with a value or with a failure, and both leave a state. `Ensures` says what holds of
each. A sequence of readers ensures what its steps ensure one after the other, so a reader is
followed step by step; the small moves of the cursor are followed by `simp`.
-/

namespace Pug.Reader

variable {σ E α β : Type}

/-- Run from `s`, the reader ends in a value and a state that satisfy `post`, or in a failure and a
state that satisfy `broken`. -/
def Ensures (m : Reader σ α) (s : ReadState σ) (post : α → ReadState σ → Prop)
    (broken : Failure → ReadState σ → Prop) : Prop :=
  match m s with
  | .ok a t => post a t
  | .error f t => broken f t

/-- What follows a step goes on from the state that the step leaves. -/
theorem bind_of_ok {m : Reader σ α} {k : α → Reader σ β} {a : α} {s t : ReadState σ}
    (h : m s = .ok a t) : (m >>= k) s = k a t := by
  simp only [bind, EStateM.bind, h]

/-- Behind a step that fails nothing follows. -/
theorem bind_of_error {m : Reader σ α} {k : α → Reader σ β} {f : Failure} {s t : ReadState σ}
    (h : m s = .error f t) : (m >>= k) s = .error f t := by
  simp only [bind, EStateM.bind, h]

/-- A sequence ends in a value if its steps do, one after the other. -/
theorem bind_eq_ok {m : Reader σ α} {k : α → Reader σ β} {b : β} {s u : ReadState σ} :
    (m >>= k) s = .ok b u ↔ ∃ a t, m s = .ok a t ∧ k a t = .ok b u := by
  simp only [bind, EStateM.bind]
  cases m s with
  | ok a t =>
    refine ⟨fun h ↦ ⟨a, t, rfl, h⟩, ?_⟩
    rintro ⟨_, _, ⟨⟩, h⟩
    exact h
  | error f t =>
    refine ⟨nofun, ?_⟩
    rintro ⟨_, _, ⟨⟩, _⟩

theorem here_eq (s : ReadState σ) : here s = .ok s.cursor s := rfl

section

variable {post post' : α → ReadState σ → Prop} {broken : Failure → ReadState σ → Prop}
variable {s : ReadState σ}

theorem Ensures.mono {m : Reader σ α} (h : m.Ensures s post broken)
    (hp : ∀ a t, post a t → post' a t) : m.Ensures s post' broken := by
  unfold Ensures at h ⊢
  split
  · rename_i hm
    rw [hm] at h
    exact hp _ _ h
  · rename_i hm
    rw [hm] at h
    exact h

theorem Ensures.of_ok {m : Reader σ α} {a : α} {t : ReadState σ} (h : m.Ensures s post broken)
    (hm : m s = .ok a t) : post a t := by
  rwa [Ensures, hm] at h

theorem Ensures.of_error {m : Reader σ α} {f : Failure} {t : ReadState σ}
    (h : m.Ensures s post broken) (hm : m s = .error f t) : broken f t := by
  rwa [Ensures, hm] at h

/-- What holds of the two ends of a run holds of its result. -/
theorem Ensures.elim {m : Reader σ α} {P : EStateM.Result Failure (ReadState σ) α → Prop}
    (h : m.Ensures s (fun a t ↦ P (.ok a t)) (fun f t ↦ P (.error f t))) : P (m.run s) := by
  unfold Ensures at h
  unfold EStateM.run
  split at h <;> rename_i hm <;> rwa [hm]

@[simp] theorem ensures_pure (a : α) :
    Ensures (pure a : Reader σ α) s post broken ↔ post a s := Iff.rfl

@[simp] theorem ensures_throw (f : Failure) :
    Ensures (throw f : Reader σ α) s post broken ↔ broken f s := Iff.rfl

@[simp] theorem ensures_bind (m : Reader σ β) (k : β → Reader σ α) :
    Ensures (m >>= k) s post broken ↔
      m.Ensures s (fun b t ↦ (k b).Ensures t post broken) broken := by
  simp only [Ensures, bind, EStateM.bind]
  cases m s <;> rfl

@[simp] theorem ensures_map (f : β → α) (m : Reader σ β) :
    Ensures (f <$> m) s post broken ↔ m.Ensures s (fun b t ↦ post (f b) t) broken := by
  simp only [Ensures, Functor.map, EStateM.map]
  cases m s <;> rfl

/-- A step and what follows it. -/
theorem Ensures.bind {m : Reader σ β} {k : β → Reader σ α} {mid : β → ReadState σ → Prop}
    (h : m.Ensures s mid broken)
    (hk : ∀ b t, mid b t → (k b).Ensures t post broken) :
    Ensures (m >>= k) s post broken :=
  (ensures_bind m k).2 (h.mono hk)

theorem ensures_ite {c : Prop} [Decidable c] {m n : Reader σ α}
    (hm : c → m.Ensures s post broken) (hn : ¬c → n.Ensures s post broken) :
    Ensures (if c then m else n) s post broken := by
  split
  · exact hm ‹_›
  · exact hn ‹_›

@[simp] theorem ensures_failAt (c : Cursor) (problem : Problem) :
    Ensures (failAt c problem : Reader σ α) s post broken ↔
      broken (.error ⟨problem, c.offset, none⟩) s := Iff.rfl

@[simp] theorem ensures_failWithHelp (c : Cursor) (problem : Problem) (help : String) :
    Ensures (failWithHelp c problem help : Reader σ α) s post broken ↔
      broken (.error ⟨problem, c.offset, some help⟩) s := Iff.rfl

end

section

variable {broken : Failure → ReadState σ → Prop} {s : ReadState σ}

@[simp] theorem ensures_get {post : ReadState σ → ReadState σ → Prop} :
    Ensures (get : Reader σ (ReadState σ)) s post broken ↔ post s s := Iff.rfl

@[simp] theorem ensures_here {post : Cursor → ReadState σ → Prop} :
    Ensures here s post broken ↔ post s.cursor s := Iff.rfl

variable {post : Unit → ReadState σ → Prop}

@[simp] theorem ensures_set (t : ReadState σ) :
    Ensures (set t : Reader σ Unit) s post broken ↔ post () t := Iff.rfl

@[simp] theorem ensures_moveTo (c : Cursor) :
    Ensures (moveTo c) s post broken ↔ post () { s with cursor := c } := Iff.rfl

@[simp] theorem ensures_skipSpacing :
    Ensures skipSpacing s post broken ↔ post () { s with cursor := s.cursor.skipSpacing } :=
  Iff.rfl

@[simp] theorem ensures_skipSeparators :
    Ensures skipSeparators s post broken ↔
      post () { s with cursor := s.cursor.skipSeparators } := Iff.rfl

@[simp] theorem ensures_skipLine :
    Ensures skipLine s post broken ↔ post () { s with cursor := s.cursor.lineEnd } := Iff.rfl

/-- Eating a word moves behind it if it stands at the cursor, and nowhere else. -/
theorem ensures_eat {word : String} {post : Bool → ReadState σ → Prop}
    (ht : s.cursor.startsWith word = true →
      post true { s with cursor := s.cursor.past word.toList })
    (hf : s.cursor.startsWith word = false → post false s) :
    Ensures (eat word) s post broken := by
  by_cases h : s.cursor.startsWith word = true
  · simpa [eat, h] using ht h
  · simpa [eat, h] using hf (by simpa using h)

end

end Pug.Reader
