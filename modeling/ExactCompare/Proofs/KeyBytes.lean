import ExactCompare.Proofs.Hash.Mixing
import Mathlib.Data.Nat.Digits.Lemmas

/-!
# No byte of a key is ignored

A block of a key goes into the state as three words, in which no two of its bytes overlap. Mixing
and the blocks after it keep states apart, so two keys that differ in one block only end in
different states.
-/

namespace ExactCompare.Hash

open Function

/-! ## Words -/

theorem lt_of_mem_map_toNat {bytes : List UInt8} : ∀ d ∈ bytes.map UInt8.toNat, d < 256 := by
  intro d hd
  obtain ⟨byte, -, rfl⟩ := List.mem_map.mp hd
  exact byte.toNat_lt

theorem ofDigits_toNat_lt {bytes : List UInt8} (h : bytes.length < 4) :
    Nat.ofDigits 256 (bytes.map UInt8.toNat) < 2 ^ 24 := by
  calc Nat.ofDigits 256 (bytes.map UInt8.toNat)
      < 256 ^ (bytes.map UInt8.toNat).length :=
        Nat.ofDigits_lt_base_pow_length (by decide) lt_of_mem_map_toNat
    _ ≤ 256 ^ 3 := Nat.pow_le_pow_right (by decide) (by rw [List.length_map]; omega)
    _ = 2 ^ 24 := by norm_num

theorem toNat_shiftLeft_byte {x : UInt32} (h : x.toNat < 2 ^ 24) :
    (x <<< 8).toNat = x.toNat <<< 8 := by
  have hsum : x.toNat * 2 ^ 8 < 2 ^ 32 := by omega
  rw [UInt32.toNat_shiftLeft, Nat.shiftLeft_eq, Nat.shiftLeft_eq]
  exact Nat.mod_eq_of_lt hsum

theorem toNat_word {bytes : List UInt8} (h : bytes.length ≤ 4) :
    (word bytes).toNat = Nat.ofDigits 256 (bytes.map UInt8.toNat) := by
  induction bytes with
  | nil => rfl
  | cons byte rest ih =>
    have hshort : rest.length < 4 := h
    have hrest := ih hshort.le
    have hshift := toNat_shiftLeft_byte (hrest ▸ ofDigits_toNat_lt hshort)
    calc (word (byte :: rest)).toNat
        = byte.toNat ||| (word rest).toNat <<< 8 := by
          rw [word, UInt32.toNat_or, UInt8.toNat_toUInt32, hshift]
      _ = (word rest).toNat <<< 8 + byte.toNat := by
          rw [Nat.or_comm, Nat.shiftLeft_add_eq_or_of_lt byte.toNat_lt]
      _ = Nat.ofDigits 256 ((byte :: rest).map UInt8.toNat) := by
          rw [List.map_cons, Nat.ofDigits_cons, hrest, Nat.shiftLeft_eq, Nat.mul_comm, Nat.add_comm]

theorem word_inj {xs ys : List UInt8} (hlength : xs.length = ys.length) (hle : xs.length ≤ 4)
    (h : word xs = word ys) : xs = ys := by
  have hdigits : Nat.ofDigits 256 (xs.map UInt8.toNat) = Nat.ofDigits 256 (ys.map UInt8.toNat) := by
    rw [← toNat_word hle, h, toNat_word (hlength ▸ hle)]
  have hmap := Nat.ofDigits_inj_of_len_eq (by decide)
    (by rw [List.length_map, List.length_map, hlength]) lt_of_mem_map_toNat lt_of_mem_map_toNat
    hdigits
  exact List.map_injective_iff.mpr (fun _ _ => UInt8.toNat_inj.mp) hmap

theorem word_zero_cons (rest : List UInt8) : word (0 :: rest) = word rest <<< 8 := UInt32.zero_or

/-! ## Blocks -/

theorem eq_of_take_of_drop {n : ℕ} {xs ys : List UInt8} (htake : xs.take n = ys.take n)
    (hdrop : xs.drop n = ys.drop n) : xs = ys := by
  rw [← List.take_append_drop n xs, htake, hdrop, List.take_append_drop]

namespace State

variable {s : State} {xs ys : List UInt8}

theorem add_injective (a b c : UInt32) : Injective (add · a b c) := by
  rintro ⟨a₁, b₁, c₁⟩ ⟨a₂, b₂, c₂⟩ h
  simpa [add] using h

theorem add_inj {a b c a' b' c' : UInt32} :
    s.add a b c = s.add a' b' c' ↔ a = a' ∧ b = b' ∧ c = c' := by
  simp [add]

theorem eq_of_add_eq {c c' : UInt32} (hlength : xs.length = ys.length)
    (h : s.add (word (xs.take 4)) (word ((xs.drop 4).take 4)) c =
      s.add (word (ys.take 4)) (word ((ys.drop 4).take 4)) c')
    (hrest : c = c' → xs.drop 8 = ys.drop 8) : xs = ys := by
  obtain ⟨hfirst, hsecond, hthird⟩ := add_inj.mp h
  have htake : xs.take 4 = ys.take 4 :=
    word_inj (by rw [List.length_take, List.length_take, hlength]) (List.length_take_le ..) hfirst
  have hmiddle : (xs.drop 4).take 4 = (ys.drop 4).take 4 :=
    word_inj (by simp only [List.length_take, List.length_drop, hlength])
      (List.length_take_le ..) hsecond
  refine eq_of_take_of_drop htake (eq_of_take_of_drop hmiddle ?_)
  rw [List.drop_drop, List.drop_drop]
  exact hrest hthird

theorem addBlock_inj (hlength : xs.length = ys.length) (hle : xs.length ≤ 12)
    (h : s.addBlock xs = s.addBlock ys) : xs = ys :=
  eq_of_add_eq hlength h <| word_inj (by rw [List.length_drop, List.length_drop, hlength])
    (by rw [List.length_drop]; omega)

theorem addTail_inj (hlength : xs.length = ys.length) (hlt : xs.length < 12)
    (h : s.addTail xs = s.addTail ys) : xs = ys := by
  refine eq_of_add_eq hlength h fun hthird => ?_
  rw [← word_zero_cons, ← word_zero_cons] at hthird
  have hcons := word_inj (by simp [hlength]) (by simp; omega) hthird
  exact List.tail_eq_of_cons_eq hcons

/-! ## Keys -/

theorem absorb_of_lt {key : List UInt8} (h : key.length < 12) (s : State) :
    s.absorb key = (s.addTail key).finalMix := by
  rw [absorb, if_neg (by rw [List.length_take]; omega)]

theorem absorb_of_le {key : List UInt8} (h : 12 ≤ key.length) (s : State) :
    s.absorb key = (s.addBlock (key.take 12)).mix.absorb (key.drop 12) := by
  rw [absorb, if_pos (by rw [List.length_take]; omega)]

/-- Whatever is read later, states are kept apart. -/
theorem absorb_injective (key : List UInt8) : Injective (absorb · key) := by
  intro s t h
  dsimp only at h
  fun_induction absorb s key generalizing t with
  | case1 s key full ih =>
    rw [absorb_of_le (by simpa using full) t] at h
    exact add_injective _ _ _ (mix_injective (ih h))
  | case2 s key short =>
    rw [absorb_of_lt (by simpa using short) t] at h
    exact add_injective _ _ _ (finalMix_injective h)

end State

/-! ## Keys that differ in one block -/

/-- Two keys have the same bytes, except perhaps in one block. The last block may be a partial
one. -/
def AgreeOutside (block : ℕ) (key other : List UInt8) : Prop :=
  ∀ i, i / 12 ≠ block → key[i]? = other[i]?

namespace AgreeOutside

variable {block : ℕ} {key other : List UInt8}

theorem drop_eq (h : AgreeOutside 0 key other) : key.drop 12 = other.drop 12 := by
  apply List.ext_getElem?
  intro i
  rw [List.getElem?_drop, List.getElem?_drop, h (12 + i) (by omega)]

theorem take_eq (h : AgreeOutside (block + 1) key other) : key.take 12 = other.take 12 := by
  apply List.ext_getElem?
  intro i
  rw [List.getElem?_take, List.getElem?_take]
  split
  case isTrue hlt => exact h i (by omega)
  case isFalse => rfl

theorem drop (h : AgreeOutside (block + 1) key other) :
    AgreeOutside block (key.drop 12) (other.drop 12) := by
  intro i hi
  rw [List.getElem?_drop, List.getElem?_drop, h (12 + i) (by omega)]

theorem set (key : List UInt8) (i : ℕ) (byte : UInt8) :
    AgreeOutside (i / 12) key (key.set i byte) := by
  intro j hj
  rw [List.getElem?_set_ne (by rintro rfl; exact hj rfl)]

end AgreeOutside

/-! ## The block that differs -/

namespace State

variable {s : State} {key other : List UInt8}

theorem eq_of_absorb_eq_of_lt (hlength : key.length = other.length) (hlt : key.length < 12)
    (h : s.absorb key = s.absorb other) : key = other := by
  rw [absorb_of_lt hlt, absorb_of_lt (hlength ▸ hlt)] at h
  exact addTail_inj hlength hlt (finalMix_injective h)

theorem take_eq_of_absorb_eq (hlength : key.length = other.length) (hle : 12 ≤ key.length)
    (hrest : key.drop 12 = other.drop 12) (h : s.absorb key = s.absorb other) :
    key.take 12 = other.take 12 := by
  have hother : 12 ≤ other.length := hlength ▸ hle
  rw [absorb_of_le hle s, absorb_of_le hother s, hrest] at h
  have hblock := mix_injective (absorb_injective _ h)
  exact addBlock_inj (by rw [List.length_take, List.length_take, hlength])
    (List.length_take_le ..) hblock

theorem eq_of_absorb_eq {block : ℕ} (hlength : key.length = other.length)
    (hagree : AgreeOutside block key other) (h : s.absorb key = s.absorb other) : key = other := by
  -- The states are the same up to the block, and are kept apart after it.
  induction block generalizing key other s with
  | zero =>
    rcases Nat.lt_or_ge key.length 12 with hlt | hle
    · exact eq_of_absorb_eq_of_lt hlength hlt h
    · have hrest := hagree.drop_eq
      exact eq_of_take_of_drop (take_eq_of_absorb_eq hlength hle hrest h) hrest
  | succ block ih =>
    rcases Nat.lt_or_ge key.length 12 with hlt | hle
    · exact eq_of_absorb_eq_of_lt hlength hlt h
    · have hfirst := hagree.take_eq
      have hother : 12 ≤ other.length := hlength ▸ hle
      rw [absorb_of_le hle s, absorb_of_le hother s, hfirst] at h
      have hrest := ih (by rw [List.length_drop, List.length_drop, hlength]) hagree.drop h
      exact eq_of_take_of_drop hfirst hrest

end State

end Hash

/-! ## The theorem -/

/-- **No byte of a key is ignored.** Both ways of mixing keep states apart, and so does reading a
key. Two keys of one length that differ in one block only, the partial one at the end included,
lead from one state to different ones. -/
theorem key_bytes_are_never_ignored :
    Function.Injective Hash.State.mix ∧
      Function.Injective Hash.State.finalMix ∧
      (∀ (block : ℕ) (key other : List UInt8), key.length = other.length →
        Hash.AgreeOutside block key other → key ≠ other →
        ∀ s : Hash.State, s.absorb key ≠ s.absorb other) ∧
      ∀ key : List UInt8, Function.Injective (Hash.State.absorb · key) := by
  refine ⟨Hash.State.mix_injective, Hash.State.finalMix_injective, ?_, Hash.State.absorb_injective⟩
  intro block key other hlength hagree hne s h
  exact hne (Hash.State.eq_of_absorb_eq hlength hagree h)

theorem key_bytes_are_never_ignored_at_last :
    let key : List UInt8 := List.replicate 23 0
    key.length = (key.set 22 128).length ∧ Hash.AgreeOutside 1 key (key.set 22 128) ∧
      key ≠ key.set 22 128 ∧ ∀ s : Hash.State, s.absorb key ≠ s.absorb (key.set 22 128) := by
  intro key
  have hlength : key.length = (key.set 22 128).length := by decide
  have hagree : Hash.AgreeOutside 1 key (key.set 22 128) := .set key 22 128
  have hne : key ≠ key.set 22 128 := by decide
  exact ⟨hlength, hagree, hne, key_bytes_are_never_ignored.2.2.1 1 _ _ hlength hagree hne⟩

end ExactCompare
