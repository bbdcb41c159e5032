/-!
# The byte hash

A key is read in blocks of twelve bytes, as three little-endian words. Each block
is added to a state of three words, which is then mixed. The rest of the key is
added in the same way, except that the lowest byte of the third word belongs to
the length of the key.
-/

namespace ExactCompare.Hash

structure State where
  a : UInt32
  b : UInt32
  c : UInt32
  deriving DecidableEq

def rotateLeft (x : UInt32) (n : UInt32) : UInt32 := x <<< n ||| x >>> (32 - n)

namespace State

/-! ## Mixing -/

/-- One step of `mix`: the third word goes into the first, and the second into the third. -/
def mixStep (s : State) (n : UInt32) : State :=
  { s with a := (s.a - s.c) ^^^ rotateLeft s.c n, c := s.c + s.b }

/-- The state with its words moved one place. -/
def turn (s : State) : State := ⟨s.b, s.c, s.a⟩

def mix (s : State) : State :=
  [4, 6, 8, 16, 19, 4].foldl (fun s n => (s.mixStep n).turn) s

/-- One step of `finalMix`: the second word goes into the third. -/
def finalStep (s : State) (n : UInt32) : State :=
  { s with c := (s.c ^^^ s.b) - rotateLeft s.b n }

def finalMix (s : State) : State :=
  ([14, 11, 25, 16, 4, 14, 24].foldl (fun s n => (s.finalStep n).turn) s).turn.turn

/-! ## Reading a key -/

def add (s : State) (a b c : UInt32) : State := ⟨s.a + a, s.b + b, s.c + c⟩

end State

/-- The little-endian word of at most four bytes. -/
def word : List UInt8 → UInt32
  | [] => 0
  | byte :: rest => byte.toUInt32 ||| word rest <<< 8

/-- Adds the last bytes of a key, fewer than twelve. -/
def State.addTail (s : State) (tail : List UInt8) : State :=
  s.add (word (tail.take 4)) (word ((tail.drop 4).take 4)) (word (tail.drop 8) <<< 8)

def State.addBlock (s : State) (block : List UInt8) : State :=
  s.add (word (block.take 4)) (word ((block.drop 4).take 4)) (word (block.drop 8))

def State.absorb (s : State) (key : List UInt8) : State :=
  if (key.take 12).length = 12 then (s.addBlock (key.take 12)).mix.absorb (key.drop 12)
  else (s.addTail key).finalMix
termination_by key.length
decreasing_by
  rename_i full
  simp only [List.length_take] at full
  simp only [List.length_drop]
  omega

/-! ## Hashing -/

/-- The length enters every word of the first state. -/
def State.initial (key : List UInt8) : State :=
  let word := 0x9e3779b9 + 3923095 + UInt32.ofNat key.length
  ⟨word, word, word⟩

/-- A seed of zero leaves the state as it is. -/
def State.seed (s : State) (seed : UInt64) : State :=
  if seed = 0 then s else (s.add (seed >>> 32).toUInt32 seed.toUInt32 0).mix

def bytes (key : List UInt8) : UInt32 := ((State.initial key).absorb key).c

def bytesExtended (key : List UInt8) (seed : UInt64) : UInt64 :=
  let s := ((State.initial key).seed seed).absorb key
  s.b.toUInt64 <<< 32 ||| s.c.toUInt64

end ExactCompare.Hash
