import Mathlib.Tactic.Ring
import Mathlib.Data.List.Basic

/-!
# Framing — decoding a stream that arrives in chunks

A decoder takes one frame at a time out of its state, a buffer and
whatever it remembers between calls; it may have to wait for more bytes.
`drain` calls it until it waits or fails. If more bytes never change what
a call that returned a frame, or failed, had to say, then draining after
every chunk gives the frames of the whole stream (`drainAll_eq`).
-/

namespace Aurum

/-- A decoder: `decode` returns a frame, waits (`none`) or fails, and every
frame costs bytes. -/
structure Decoder (σ ε φ : Type) where
  size : σ → Nat
  decode : σ → Except ε (Option φ) × σ
  shrinks : ∀ {s s' : σ} {frame : φ}, decode s = (.ok (some frame), s') → size s' < size s

/-- What draining a decoder gives. -/
structure Drained (σ ε φ : Type) where
  frames : List φ
  error : Option ε
  state : σ

namespace Decoder

variable {σ ε φ : Type} (d : Decoder σ ε φ) (extend : σ → List UInt8 → σ)

/-- Calls `decode` until it waits or fails, but at most `n` times. -/
def drainWithin : Nat → σ → Drained σ ε φ
  | 0, s => ⟨[], none, s⟩
  | n + 1, s =>
    match d.decode s with
    | (.ok (some frame), s') =>
      let later := drainWithin n s'
      { later with frames := frame :: later.frames }
    | (.ok none, s') => ⟨[], none, s'⟩
    | (.error e, s') => ⟨[], some e, s'⟩

/-- Calls `decode` until it waits or fails: every frame costs bytes, so
the size bounds the number of calls. -/
def drain (s : σ) : Drained σ ε φ := d.drainWithin (d.size s + 1) s

/-- Appends the chunks one by one, draining after each. -/
def drainAll (s : σ) : List (List UInt8) → Drained σ ε φ
  | [] => ⟨[], none, s⟩
  | chunk :: chunks =>
    let now := d.drain (extend s chunk)
    match now.error with
    | some e => ⟨now.frames, some e, now.state⟩
    | none =>
      let later := drainAll now.state chunks
      { later with frames := now.frames ++ later.frames }

variable {d extend} {s s' : σ}

/-- More calls than the size allows change nothing. -/
theorem drainWithin_eq : ∀ (n m : Nat) (s : σ), d.size s < n → d.size s < m →
    d.drainWithin n s = d.drainWithin m s
  | n + 1, m + 1, s, hn, hm => by
    rw [drainWithin, drainWithin]
    rcases h : d.decode s with ⟨res, s'⟩
    cases res with
    | error e => rfl
    | ok res =>
      cases res with
      | none => rfl
      | some frame =>
        have hlt := d.shrinks h
        dsimp only
        rw [drainWithin_eq n m s' (by omega) (by omega)]

theorem drain_some {frame : φ} (h : d.decode s = (.ok (some frame), s')) :
    d.drain s = { d.drain s' with frames := frame :: (d.drain s').frames } := by
  rw [drain, drainWithin, h]
  dsimp only
  rw [drainWithin_eq (d.size s) (d.size s' + 1) s' (d.shrinks h) (Nat.lt_succ_self _), ← drain]

theorem drain_none (h : d.decode s = (.ok none, s')) : d.drain s = ⟨[], none, s'⟩ := by
  rw [drain, drainWithin, h]

theorem drain_error {e : ε} (h : d.decode s = (.error e, s')) : d.drain s = ⟨[], some e, s'⟩ := by
  rw [drain, drainWithin, h]

/-- **Induction along a drain**: the frames still to come. -/
theorem drain_induction {P : σ → Prop}
    (step : ∀ s, (∀ frame s', d.decode s = (.ok (some frame), s') → P s') → P s) (s : σ) : P s := by
  induction hn : d.size s using Nat.strongRecOn generalizing s with
  | ind n ih =>
    apply step
    intro frame s' h
    exact ih _ (hn ▸ d.shrinks h) s' rfl

/-- Draining depends on the first call alone. -/
theorem drain_congr {t : σ} (h : d.decode s = d.decode t) : d.drain s = d.drain t := by
  rcases ht : d.decode t with ⟨res, t'⟩
  cases res with
  | error e => rw [drain_error ht, drain_error (h.trans ht)]
  | ok res =>
    cases res with
    | none => rw [drain_none ht, drain_none (h.trans ht)]
    | some frame => rw [drain_some ht, drain_some (h.trans ht)]

/-! ## More bytes -/

/-- More bytes change nothing about a call that returned a frame or
failed. -/
structure Steady (d : Decoder σ ε φ) (extend : σ → List UInt8 → σ) : Prop where
  some : ∀ {s s' : σ} {frame : φ} (more : List UInt8), d.decode s = (.ok (.some frame), s') →
    d.decode (extend s more) = (.ok (.some frame), extend s' more)
  error : ∀ {s s' : σ} {e : ε} (more : List UInt8), d.decode s = (.error e, s') →
    d.decode (extend s more) = (.error e, extend s' more)

/-- `t` is a state the drain of `s` passes. -/
inductive Passes (d : Decoder σ ε φ) : σ → σ → Prop
  | refl (s : σ) : Passes d s s
  | step {s s' t : σ} {frame : φ} : d.decode s = (.ok (some frame), s') → Passes d s' t →
      Passes d s t

/-- **A drain interrupted** between two chunks. The call that had to wait
must give, with more bytes, what a new call gives. -/
theorem drain_extend (hd : Steady d extend) (more : List UInt8) (s : σ)
    (herror : (d.drain s).error = none)
    (hresume : ∀ t, d.Passes s t → d.decode t = (.ok none, (d.drain s).state) →
      d.decode (extend t more) = d.decode (extend (d.drain s).state more)) :
    d.drain (extend s more) =
      { d.drain (extend (d.drain s).state more) with
        frames := (d.drain s).frames ++ (d.drain (extend (d.drain s).state more)).frames } := by
  induction s using drain_induction (d := d) with
  | step s ih =>
    rcases h : d.decode s with ⟨res, s'⟩
    cases res with
    | error e => rw [drain_error h] at herror; cases herror
    | ok res =>
      cases res with
      | none =>
        rw [drain_none h] at hresume ⊢
        rw [drain_congr (hresume s (.refl s) h)]
        rfl
      | some frame =>
        rw [drain_some h] at herror hresume ⊢
        rw [drain_some (hd.some more h), ih frame s' h herror fun t ht =>
          hresume t (.step h ht)]
        rfl

/-- A drain that fails fails in the same way with more bytes. -/
theorem drain_extend_error (hd : Steady d extend) (more : List UInt8) {e : ε} (s : σ)
    (herror : (d.drain s).error = some e) :
    d.drain (extend s more) =
      ⟨(d.drain s).frames, some e, extend (d.drain s).state more⟩ := by
  induction s using drain_induction (d := d) with
  | step s ih =>
    rcases h : d.decode s with ⟨res, s'⟩
    cases res with
    | error e' =>
      rw [drain_error h] at herror ⊢
      obtain rfl := Option.some.inj herror
      rw [drain_error (hd.error more h)]
    | ok res =>
      cases res with
      | none => rw [drain_none h] at herror; cases herror
      | some frame =>
        rw [drain_some h] at herror ⊢
        rw [drain_some (hd.some more h), ih frame s' h herror]

/-- A decoder whose state is a buffer it leaves alone while it waits. -/
structure Incremental (d : Decoder σ ε φ) (extend : σ → List UInt8 → σ) : Prop
    extends Steady d extend where
  wait : ∀ {s s' : σ}, d.decode s = (.ok none, s') → s' = s
  nil : ∀ s, extend s [] = s
  append : ∀ s a b, extend (extend s a) b = extend s (a ++ b)

/-- A drain without error ends in a state that waits. -/
theorem Incremental.waits (hd : Incremental d extend) (s : σ) (herror : (d.drain s).error = none) :
    d.decode (d.drain s).state = (.ok none, (d.drain s).state) := by
  induction s using drain_induction (d := d) with
  | step s ih =>
    rcases h : d.decode s with ⟨res, s'⟩
    cases res with
    | error e => rw [drain_error h] at herror; cases herror
    | ok res =>
      cases res with
      | none =>
        obtain rfl := hd.wait h
        rw [drain_none h]
        exact h
      | some frame =>
        rw [drain_some h] at herror ⊢
        exact ih frame s' h herror

/-- **Chunks do not matter.** Draining after every chunk returns the
frames of the whole stream, and fails if and as the whole stream does. -/
theorem Incremental.drainAll_eq (hd : Incremental d extend) :
    ∀ (chunks : List (List UInt8)) (s : σ),
    d.decode s = (.ok none, s) →
    (d.drainAll extend s chunks).frames = (d.drain (extend s chunks.flatten)).frames ∧
      (d.drainAll extend s chunks).error = (d.drain (extend s chunks.flatten)).error ∧
      ((d.drainAll extend s chunks).error = none →
        (d.drainAll extend s chunks).state = (d.drain (extend s chunks.flatten)).state)
  | [], s, hs => by
    rw [List.flatten_nil, hd.nil, drain_none hs, drainAll]
    exact ⟨rfl, rfl, fun _ => rfl⟩
  | chunk :: chunks, s, hs => by
    rw [List.flatten_cons, ← hd.append]
    rw [drainAll]
    dsimp only
    cases herror : (d.drain (extend s chunk)).error with
    | some e =>
      rw [drain_extend_error hd.toSteady chunks.flatten _ herror]
      exact ⟨rfl, rfl, fun h => by cases h⟩
    | none =>
      have hwait := hd.waits _ herror
      obtain ⟨h1, h2, h3⟩ := hd.drainAll_eq chunks _ hwait
      rw [drain_extend hd.toSteady chunks.flatten _ herror fun t _ ht => by rw [hd.wait ht]]
      exact ⟨congrArg ((d.drain (extend s chunk)).frames ++ ·) h1, h2, h3⟩

end Decoder

end Aurum
