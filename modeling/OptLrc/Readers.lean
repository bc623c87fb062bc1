import Mathlib.Data.List.Basic

namespace OptLrc.Readers

variable {β ρ ε α S : Type}

/-- A program that reads pieces of a stream, the size of each worked out from the pieces before, and
what it gives when a piece cannot be read. -/
inductive Reader (β ρ ε α : Type)
  | done (a : α)
  | stop (e : ε)
  | read (size : Nat) (next : List β → Reader β ρ ε α) (failed : ρ → α)

namespace Reader

/-- The program over a source of pieces. -/
def run (source : Nat → S → Except ε (Except ρ (List β) × S)) : Reader β ρ ε α → S → Except ε (α × S)
  | done a, s => .ok (a, s)
  | stop e, _ => .error e
  | read size next failed, s =>
    match source size s with
    | .error e => .error e
    | .ok (.error rc, s') => .ok (failed rc, s')
    | .ok (.ok data, s') => (next data).run source s'

/-- What the program makes of a list, and what it leaves of it. -/
def parse : Reader β ρ ε α → List β → Except ε (α × List β)
  | done a, l => .ok (a, l)
  | stop e, _ => .error e
  | read size next _, l => (next (l.take size)).parse (l.drop size)

/-- How much of a list the program reads. -/
def extent : Reader β ρ ε α → List β → Nat
  | done _, _ => 0
  | stop _, _ => 0
  | read size next _, l => size + (next (l.take size)).extent (l.drop size)

/-- The program may end with `a` because a piece could not be read, for a reason in `bad`. -/
def GivesUp (bad : ρ → Prop) : Reader β ρ ε α → List β → α → Prop
  | done _, _, _ => False
  | stop _, _, _ => False
  | read size next failed, l, a =>
    (∃ rc, bad rc ∧ a = failed rc) ∨ (next (l.take size)).GivesUp bad (l.drop size) a

variable {source : Nat → S → Except ε (Except ρ (List β) × S)} {stream : S → List β}

/-- A source that has enough makes the program do what it does on the list. -/
theorem run_of_ready {ready : Nat → S → Prop}
    (hsource : ∀ need size s, ready need s → size ≤ need → ∃ s',
      source size s = .ok (.ok ((stream s).take size), s') ∧ stream s' = (stream s).drop size ∧
        ready (need - size) s')
    (r : Reader β ρ ε α) {need : Nat} {s : S} (h : ready need s) (hneed : r.extent (stream s) ≤ need)
    {a : α} {rest : List β} (hparse : r.parse (stream s) = .ok (a, rest)) :
    ∃ s', r.run source s = .ok (a, s') ∧ stream s' = rest ∧ ready (need - r.extent (stream s)) s' := by
  induction r generalizing need s with
  | done b =>
    obtain ⟨rfl, rfl⟩ := Prod.mk.inj (Except.ok.inj hparse)
    exact ⟨s, rfl, rfl, h⟩
  | stop e => cases hparse
  | read size next failed ih =>
    rw [extent] at hneed
    obtain ⟨s', hs', hstream, hready⟩ := hsource need size s h (by omega)
    rw [parse] at hparse
    have hnext := ih ((stream s).take size) hready (by rw [hstream]; omega)
    rw [hstream] at hnext
    rw [run, hs', extent, ← Nat.sub_sub]
    exact hnext hparse

/-- Over a source that may fail, the program does what it does on the list, or it gives up. -/
theorem run_of_sound {sound : S → Prop} {bad : ρ → Prop} {blocked : ε}
    (hsource : ∀ size s, sound s → source size s = .error blocked ∨
      (∃ rc s', source size s = .ok (.error rc, s') ∧ bad rc) ∨
      ∃ data s', source size s = .ok (.ok data, s') ∧
        sound s' ∧ stream s = data ++ stream s' ∧ data.length = size)
    (r : Reader β ρ ε α) {s : S} (h : sound s) :
    r.run source s = .error blocked ∨
    (∃ e, r.parse (stream s) = .error e ∧ r.run source s = .error e) ∨
    ∃ a s', r.run source s = .ok (a, s') ∧
      (r.parse (stream s) = .ok (a, stream s') ∧ sound s' ∨ r.GivesUp bad (stream s) a) := by
  induction r generalizing s with
  | done a => exact .inr (.inr ⟨a, s, rfl, .inl ⟨rfl, h⟩⟩)
  | stop e => exact .inr (.inl ⟨e, rfl, rfl⟩)
  | read size next failed ih =>
    rw [run, parse]
    rcases hsource size s h with hs | ⟨rc, s', hs, hrc⟩ | ⟨data, s', hs, hsound, hstream, hlen⟩
    · rw [hs]
      exact .inl rfl
    · rw [hs]
      exact .inr (.inr ⟨failed rc, s', rfl, .inr (.inl ⟨rc, hrc, rfl⟩)⟩)
    · rw [hs, hstream, List.take_left' hlen, List.drop_left' hlen]
      rcases ih data hsound with hrun | hrun | ⟨a, t, hrun, hparse | hgives⟩
      · exact .inl hrun
      · exact .inr (.inl hrun)
      · exact .inr (.inr ⟨a, t, hrun, .inl hparse⟩)
      · refine .inr (.inr ⟨a, t, hrun, .inr (.inr ?_)⟩)
        rwa [List.take_left' hlen, List.drop_left' hlen]

end Reader

end OptLrc.Readers
