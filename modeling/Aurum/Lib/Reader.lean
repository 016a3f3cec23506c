import Aurum.Lib.Bytes

/-!
# Readers of byte strings

A reader takes a value off the front of a byte string. It fails with an
error of its own or, where the code indexes past the end of a buffer, with
a panic. `Yields` is the specification a round trip needs: on the bytes of
a value the reader returns it and leaves what follows.
-/

namespace Aurum

/-- How a reader fails. -/
inductive Fault (ε : Type) where
  | error (e : ε)
  | panic
deriving DecidableEq, Repr

/-- Reads a value off the front of a byte string. -/
abbrev Reader (ε : Type) := StateT (List UInt8) (Except (Fault ε))

namespace Reader

open Aurum.Bytes Except

variable {ε α β : Type} {r : Reader ε α} {f : α → Reader ε β}

def fail (fault : Fault ε) : Reader ε α := fun _ => .error fault

/-- Goes on if the condition holds. -/
def ensure (c : Prop) [Decidable c] (fault : Fault ε) : Reader ε Unit :=
  if c then pure () else fail fault

/-- The next `n` bytes; `fault` says what happens if there are fewer. -/
def take (fault : Fault ε) (n : Nat) : Reader ε (List UInt8) := fun bs =>
  if n ≤ bs.length then .ok (bs.take n, bs.drop n) else .error fault

theorem bind_apply (r : Reader ε α) (f : α → Reader ε β) (bs : List UInt8) :
    (r >>= f) bs = match r bs with
      | .ok (a, rest) => f a rest
      | .error e => .error e := by
  change (StateT.bind r f) bs = _
  rw [StateT.bind]
  cases r bs <;> rfl

theorem pure_apply (a : α) (bs : List UInt8) : (pure a : Reader ε α) bs = .ok (a, bs) := rfl

variable {a : α} {bs rest : List UInt8} {b : β} {c : Prop} {fault : Fault ε} {n : Nat}

theorem bind_ok (h : r bs = .ok (a, rest)) : (r >>= f) bs = f a rest := by
  rw [bind_apply, h]

theorem bind_eq_ok : (r >>= f) bs = .ok (b, rest) ↔
      ∃ a mid, r bs = .ok (a, mid) ∧ f a mid = .ok (b, rest) := by
  constructor
  · intro h
    rw [bind_apply] at h
    split at h
    · next a mid hr => exact ⟨a, mid, hr, h⟩
    · cases h
  · rintro ⟨a, mid, hr, hf⟩
    rw [bind_ok hr, hf]

theorem bind_eq_error {e : Fault ε} : (r >>= f) bs = .error e ↔
      r bs = .error e ∨ ∃ a mid, r bs = .ok (a, mid) ∧ f a mid = .error e := by
  rw [bind_apply]
  cases h : r bs with
  | error e' => simp
  | ok res =>
    obtain ⟨a, mid⟩ := res
    simp

theorem ensure_eq_ok [Decidable c] {u : Unit} :
    ensure c fault bs = .ok (u, rest) ↔ c ∧ rest = bs := by
  unfold ensure
  split
  · next h => simp [pure_apply, h, eq_comm]
  · next h => simp [fail, h]

theorem take_eq_ok {xs : List UInt8} :
    take fault n bs = .ok (xs, rest) ↔ bs = xs ++ rest ∧ xs.length = n := by
  unfold take
  constructor
  · intro h
    split at h
    · next hn =>
      obtain ⟨rfl, rfl⟩ := Prod.mk.inj (ok.inj h)
      exact ⟨(List.take_append_drop n bs).symm, by simp [hn]⟩
    · cases h
  · rintro ⟨rfl, rfl⟩
    simp

/-! ## Round trips -/

/-- On `bs` and anything behind it the reader returns `a` and leaves what
is behind. -/
def Yields (r : Reader ε α) (bs : List UInt8) (a : α) : Prop :=
  ∀ rest, r (bs ++ rest) = .ok (a, rest)

theorem yields_pure (a : α) : Yields (pure a : Reader ε α) [] a := fun _ => rfl

theorem Yields.bind {cs : List UInt8} (h : Yields r bs a) (h' : Yields (f a) cs b) :
    Yields (r >>= f) (bs ++ cs) b := by
  intro rest
  rw [List.append_assoc, bind_ok (h (cs ++ rest)), h' rest]

/-- A last step that takes no bytes. -/
theorem Yields.bind_pure (h : Yields r bs a) (h' : f a = pure b) : Yields (r >>= f) bs b := by
  intro rest
  rw [bind_ok (h rest), h']
  rfl

variable (fault)

theorem yields_take (bs : List UInt8) : Yields (take fault bs.length) bs bs := by
  intro rest
  rw [take_eq_ok]
  exact ⟨rfl, rfl⟩

/-! ## Numbers -/

/-- A number of `w` bytes, the least significant first. -/
def numLe (w : Nat) (ofNat : Nat → α) : Reader ε α := do
  return ofNat (ofLe (← take fault w))

/-- A number of `w` bytes, the most significant first. -/
def numBe (w : Nat) (ofNat : Nat → α) : Reader ε α := do
  return ofNat (ofBe (← take fault w))

variable {fault}

/-- A fixed-width type read in its own width: the reader takes exactly the
bytes of what it returns. -/
theorem numLe_eq_ok {w : Nat} {ofNat : Nat → α} {toNat : α → Nat} (hof : ∀ a, ofNat (toNat a) = a)
    (hto : ∀ n < 256 ^ w, toNat (ofNat n) = n) (hlt : ∀ a, toNat a < 256 ^ w) :
    numLe fault w ofNat bs = .ok (a, rest) ↔ bs = toLe w (toNat a) ++ rest := by
  unfold numLe
  rw [bind_eq_ok]
  constructor
  · rintro ⟨xs, mid, hx, h⟩
    obtain ⟨rfl, rfl⟩ := take_eq_ok.mp hx
    obtain ⟨rfl, rfl⟩ := Prod.mk.inj (ok.inj h)
    rw [hto _ (ofLe_lt xs), toLe_ofLe]
  · rintro rfl
    refine ⟨toLe w (toNat a), rest, take_eq_ok.mpr ⟨rfl, length_toLe _ _⟩, ?_⟩
    rw [ofLe_toLe (hlt a), hof]
    rfl

def getU8 : Reader ε UInt8 := numLe .panic 1 UInt8.ofNat

def getU16Le : Reader ε UInt16 := numLe .panic 2 UInt16.ofNat

def getU32Le : Reader ε UInt32 := numLe .panic 4 UInt32.ofNat

def getU64Le : Reader ε UInt64 := numLe .panic 8 UInt64.ofNat

theorem getU8_eq_ok {v : UInt8} :
    (getU8 : Reader ε UInt8) bs = .ok (v, rest) ↔ bs = toLe 1 v.toNat ++ rest :=
  numLe_eq_ok (fun _ => UInt8.ofNat_toNat) (fun _ h => UInt8.toNat_ofNat_of_lt' h)
    (fun v => v.toNat_lt)

theorem getU16Le_eq_ok {v : UInt16} :
    (getU16Le : Reader ε UInt16) bs = .ok (v, rest) ↔ bs = toLe 2 v.toNat ++ rest :=
  numLe_eq_ok (fun _ => UInt16.ofNat_toNat) (fun _ h => UInt16.toNat_ofNat_of_lt' h)
    (fun v => v.toNat_lt)

theorem getU32Le_eq_ok {v : UInt32} :
    (getU32Le : Reader ε UInt32) bs = .ok (v, rest) ↔ bs = toLe 4 v.toNat ++ rest :=
  numLe_eq_ok (fun _ => UInt32.ofNat_toNat) (fun _ h => UInt32.toNat_ofNat_of_lt' h)
    (fun v => v.toNat_lt)

theorem getU64Le_eq_ok {v : UInt64} :
    (getU64Le : Reader ε UInt64) bs = .ok (v, rest) ↔ bs = toLe 8 v.toNat ++ rest :=
  numLe_eq_ok (fun _ => UInt64.ofNat_toNat) (fun _ h => UInt64.toNat_ofNat_of_lt' h)
    (fun v => v.toNat_lt)

theorem yields_numBe (fault : Fault ε) {w : Nat} (ofNat : Nat → α) (h : n < 256 ^ w) :
    Yields (numBe fault w ofNat) (toBe w n) (ofNat n) := by
  have htake := yields_take fault (toBe w n)
  rw [length_toBe] at htake
  exact htake.bind_pure (by rw [ofBe_toBe h])

/-! ## Panics -/

/-- The reader takes `n` bytes wherever there are as many, and does not
panic there. -/
structure Fits (r : Reader ε α) (n : Nat) : Prop where
  safe : ∀ bs, n ≤ bs.length → r bs ≠ .error .panic
  takes : ∀ bs a rest, r bs = .ok (a, rest) → rest.length + n = bs.length

theorem fits_pure (a : α) : Fits (pure a : Reader ε α) 0 where
  safe _ _ h := by cases h
  takes bs a' rest h := by
    obtain ⟨-, rfl⟩ := Prod.mk.inj (ok.inj h)
    rfl

theorem fits_fail (e : ε) (n : Nat) : Fits (fail (.error e) : Reader ε α) n where
  safe _ _ h := by cases h
  takes _ _ _ h := by cases h

theorem fits_ensure [Decidable c] (e : ε) : Fits (ensure c (.error e)) 0 := by
  unfold ensure
  split
  · exact fits_pure ()
  · exact fits_fail e 0

theorem fits_numLe (fault : Fault ε) (w : Nat) (ofNat : Nat → α) :
    Fits (numLe fault w ofNat) w where
  safe bs hw h := by
    rcases bind_eq_error.mp h with h | ⟨a, mid, -, h⟩
    · rw [take, if_pos hw] at h
      cases h
    · cases h
  takes bs a rest h := by
    obtain ⟨xs, mid, hx, hpure⟩ := bind_eq_ok.mp h
    obtain ⟨rfl, rfl⟩ := take_eq_ok.mp hx
    obtain ⟨-, rfl⟩ := Prod.mk.inj (ok.inj hpure)
    rw [List.length_append, Nat.add_comm]

theorem Fits.bind {m : Nat} (h : Fits r n) (h' : ∀ a, Fits (f a) m) : Fits (r >>= f) (n + m) where
  safe bs hlen hpanic := by
    rcases bind_eq_error.mp hpanic with hpanic | ⟨a, mid, hr, hpanic⟩
    · exact h.safe bs (by omega) hpanic
    · have := h.takes bs a mid hr
      exact (h' a).safe mid (by omega) hpanic
  takes bs b rest hok := by
    obtain ⟨a, mid, hr, hf⟩ := bind_eq_ok.mp hok
    have h1 := h.takes bs a mid hr
    have h2 := (h' a).takes mid b rest hf
    omega

end Reader

end Aurum
