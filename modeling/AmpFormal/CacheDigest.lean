import AmpFormal.CacheDigestModel
import AmpFormal.MatrixLayouts
import AmpFormal.Sha256
import Mathlib.Data.UInt

/-!
# The digest is SHA-256

`block` is the compression function. What `update` keeps is the hash of the whole
blocks so far and the bytes behind them, however the bytes were cut into calls. The
padding goes through `update` too, with the bit length taken before it.
-/

namespace AmpFormal.CacheDigest

open AmpFormal.FileDirectory AmpFormal.CacheDigestModel AmpFormal.CacheDigestModel.SHA256
open AmpFormal.MatrixLayouts

set_option autoImplicit false

/-! ## The compression function -/

theorem load_word (b0 b1 b2 b3 : UInt8) :
    (b0.toUInt32 <<< 24) ||| (b1.toUInt32 <<< 16) ||| (b2.toUInt32 <<< 8) ||| b3.toUInt32 =
      UInt32.ofNat (b0.toNat * 2 ^ 24 + b1.toNat * 2 ^ 16 + b2.toNat * 2 ^ 8 + b3.toNat) := by
  have bound0 := b0.toNat_lt
  have bound1 := b1.toNat_lt
  have bound2 := b2.toNat_lt
  have bound3 := b3.toNat_lt
  have shifted : ∀ byte : UInt8, ∀ n : Nat, n ≤ 24 →
      byte.toNat <<< n % 2 ^ 32 = byte.toNat * 2 ^ n := by
    intro byte n small
    have bound := byte.toNat_lt
    rw [Nat.shiftLeft_eq, Nat.mod_eq_of_lt]
    calc byte.toNat * 2 ^ n < 2 ^ 8 * 2 ^ n :=
          Nat.mul_lt_mul_of_pos_right bound (Nat.two_pow_pos n)
      _ ≤ 2 ^ 8 * 2 ^ 24 := Nat.mul_le_mul_left _ (Nat.pow_le_pow_right (by decide) small)
      _ = 2 ^ 32 := by decide
  -- what is shifted less is below the lowest bit of what is shifted more
  have disjoint : ∀ high low n : Nat, low < 2 ^ n → high * 2 ^ n ||| low = high * 2 ^ n + low := by
    intro high low n below
    rw [← Nat.shiftLeft_eq, ← Nat.shiftLeft_add_eq_or_of_lt below]
  have first := disjoint b0.toNat (b1.toNat * 2 ^ 16) 24 (by omega)
  have second := disjoint (b0.toNat * 2 ^ 8 + b1.toNat) (b2.toNat * 2 ^ 8) 16 (by omega)
  have third := disjoint (b0.toNat * 2 ^ 16 + b1.toNat * 2 ^ 8 + b2.toNat) b3.toNat 8 (by omega)
  apply UInt32.toNat_inj.mp
  simp only [UInt32.toNat_or, UInt32.toNat_shiftLeft, UInt8.toNat_toUInt32, UInt32.toNat_ofNat',
    UInt32.reduceToNat, Nat.reduceMod]
  rw [shifted b0 24 (by decide), shifted b1 16 (by decide), shifted b2 8 (by decide), first,
    show b0.toNat * 2 ^ 24 + b1.toNat * 2 ^ 16 = (b0.toNat * 2 ^ 8 + b1.toNat) * 2 ^ 16 by ring,
    second,
    show (b0.toNat * 2 ^ 8 + b1.toNat) * 2 ^ 16 + b2.toNat * 2 ^ 8 =
      (b0.toNat * 2 ^ 16 + b1.toNat * 2 ^ 8 + b2.toNat) * 2 ^ 8 by ring, third]
  omega

theorem add_reversed (w x y z : UInt32) : w + x + y + z = z + y + x + w := by
  ac_rfl

theorem rot_eq (x n : UInt32) : rot x n = Sha256.rotr n x := rfl

theorem constants_eq : K = Sha256.roundConstants := by decide +kernel

theorem initial_eq :
    Sha256.State.ofWords SHA256.create.h.toList = Sha256.initialHash := by decide +kernel

theorem load_words (p : Bytes) (w : Nat → UInt32) {i : Nat} (first : i < 16) :
    (List.range 16).foldl (load p) w i = Sha256.messageWord p i := by
  have written := (foldl_update_places id (fun i (_ : UInt32) => Sha256.messageWord p i)
    (List.range 16) (by rw [List.map_id]; exact List.nodup_range) w).1 i (List.mem_range.mpr first)
  have body : ∀ (w : Nat → UInt32) (i : Nat),
      load p w i = Function.update w (id i) (Sha256.messageWord p i) := by
    intro w i
    rw [load, load_word, Sha256.messageWord, Nat.mul_comm i 4]
    rfl
  rw [show load p = fun w i => Function.update w (id i) (Sha256.messageWord p i) from
    funext fun w => funext fun i => body w i]
  exact written

theorem extend_words (p : Bytes) (w : Nat → UInt32)
    (loaded : ∀ i < 16, w i = Sha256.messageWord p i) (more : Nat) :
    ∀ i < 16 + more, (List.range' 16 more).foldl extend w i = (Sha256.schedule p more).getD i 0 := by
  induction more with
  | zero =>
      intro i first
      rw [List.getD_eq_getElem _ _ (by rw [Sha256.schedule_length]; exact first)]
      simp only [Sha256.schedule, List.getElem_map, List.getElem_range]
      exact loaded i first
  | succ more ih =>
      intro i inside
      have length := Sha256.schedule_length p more
      rw [List.range'_1_concat, List.foldl_append, List.foldl_cons, List.foldl_nil, extend,
        Sha256.schedule]
      by_cases last : i = 16 + more
      · subst last
        rw [Function.update_self, List.getD_append_right _ _ _ _ (Nat.le_of_eq length), length,
          Nat.sub_self, ih _ (by omega), ih _ (by omega), ih _ (by omega), ih _ (by omega)]
        simp only [Sha256.scheduleNext, length, List.getD_cons_zero, rot_eq, Sha256.smallSigma0,
          Sha256.smallSigma1]
        exact add_reversed _ _ _ _
      · rw [Function.update_of_ne last, List.getD_append _ _ _ _ (by omega)]
        exact ih i (by omega)

theorem words_schedule (p : Bytes) {i : Nat} (inside : i < 64) :
    words p i = (Sha256.schedule p 48).getD i 0 :=
  extend_words p _ (fun _ first => load_words p _ first) 48 i inside

def working (v : Vars) : Sha256.State where
  a := v.a
  b := v.b
  c := v.c
  d := v.d
  e := v.e
  f := v.f
  g := v.g
  h := v.hh

def hashOf (h : Vector UInt32 8) : Sha256.State := .ofWords h.toList

theorem working_vars_of (h : Vector UInt32 8) : working (varsOf h) = hashOf h := by
  simp [working, varsOf, hashOf, Sha256.State.ofWords]

theorem rounds_working (p : Bytes) (v : Vars) :
    working ((List.range 64).foldl (round (words p)) v) =
      (List.range 64).foldl (fun s t => Sha256.round s (Sha256.roundConstants.getD t 0)
        ((Sha256.schedule p 48).getD t 0)) (working v) := by
  apply List.foldl_rel (r := fun v s => working v = s)
  · rfl
  · rintro i member v s rfl
    rw [← words_schedule p (List.mem_range.mp member), ← constants_eq]
    rfl

theorem block_compress (h : Vector UInt32 8) (p : Bytes) :
    hashOf (block h p) = Sha256.compress (hashOf h) p := by
  have rounds := rounds_working p (varsOf h)
  rw [working_vars_of] at rounds
  rw [Sha256.compress, block_eq]
  generalize (List.range 64).foldl (round (words p)) (varsOf h) = v at rounds ⊢
  rw [← rounds, ← working_vars_of, ← working_vars_of]
  simp only [Sha256.State.add, working, varsOf, Sha256.State.mk.injEq]
  refine ⟨?_, ?_, ?_, ?_, ?_, ?_, ?_, ?_⟩ <;> exact UInt32.add_comm _ _

/-! ## The stream -/

structure Absorbed (s : SHA256) (message : Bytes) : Prop where
  hash : hashOf s.h = (Sha256.blocks message).foldl Sha256.compress Sha256.initialHash
  rest : s.buf = Sha256.remainder message

theorem absorbed_length {s : SHA256} {message : Bytes} (absorbed : Absorbed s message) :
    s.buf.length = message.length % 64 := by
  rw [absorbed.rest, Sha256.remainder_length]

/-- However much of the input goes into the buffer at a time. -/
theorem absorb_absorbed (s : SHA256) (d message : Bytes) (absorbed : Absorbed s message) :
    Absorbed (s.absorb d) (message ++ d) := by
  induction s, d using absorb.induct generalizing message with
  | case1 s =>
      rw [absorb, dif_pos rfl, List.append_nil]
      exact absorbed
  | case2 s d more k full ih =>
      have filled := full
      rw [absorbed.rest] at filled
      obtain ⟨blocks, remainder⟩ := Sha256.blocks_append_full filled
      have next : Absorbed { s with h := block s.h (s.buf ++ d.take k), buf := [], room := by decide }
          (message ++ d.take k) := by
        refine ⟨?_, remainder.symm⟩
        rw [block_compress, absorbed.hash, blocks, List.foldl_append, absorbed.rest]
        rfl
      have later := ih (message ++ d.take k) next
      rw [List.append_assoc, List.take_append_drop] at later
      rw [absorb, dif_neg more, dif_pos full]
      exact later
  | case3 s d more k partly ih =>
      have short : (Sha256.remainder message ++ d.take k).length < 64 := by
        rw [← absorbed.rest]
        have room := s.room
        simp only [k, List.length_append, List.length_take] at partly ⊢
        omega
      obtain ⟨blocks, remainder⟩ := Sha256.blocks_append_short short
      have next : Absorbed { s with buf := s.buf ++ d.take k, room := by rwa [absorbed.rest] }
          (message ++ d.take k) := by
        refine ⟨?_, ?_⟩
        · rw [blocks]
          exact absorbed.hash
        · change s.buf ++ d.take k = _
          rw [remainder, absorbed.rest]
      have later := ih (message ++ d.take k) next
      rw [List.append_assoc, List.take_append_drop] at later
      rw [absorb, dif_neg more, dif_neg partly]
      exact later

theorem update_absorbed {s : SHA256} {message : Bytes} (absorbed : Absorbed s message) (d : Bytes) :
    Absorbed (s.update d) (message ++ d) :=
  absorb_absorbed _ d message ⟨absorbed.hash, absorbed.rest⟩

theorem absorb_bit_len (s : SHA256) (d : Bytes) : (s.absorb d).bitLen = s.bitLen := by
  induction s, d using absorb.induct with
  | case1 s => rw [absorb, dif_pos rfl]
  | case2 s d more k full ih =>
      rw [absorb, dif_neg more, dif_pos full]
      exact ih
  | case3 s d more k partly ih =>
      rw [absorb, dif_neg more, dif_neg partly]
      exact ih

theorem updates_absorbed (chunks : List Bytes) :
    Absorbed (chunks.foldl update SHA256.create) chunks.flatten ∧
      (chunks.foldl update SHA256.create).bitLen = UInt64.ofNat chunks.flatten.length * 8 := by
  induction chunks using List.reverseRecOn with
  | nil => exact ⟨⟨initial_eq, rfl⟩, rfl⟩
  | append_singleton earlier d ih =>
      obtain ⟨absorbed, counted⟩ := ih
      rw [List.foldl_append, List.foldl_cons, List.foldl_nil, List.flatten_append,
        List.flatten_singleton]
      refine ⟨update_absorbed absorbed d, ?_⟩
      rw [update, absorb_bit_len, counted, List.length_append, UInt64.ofNat_add]
      grind

/-! ## The padding -/

/-- The loop over the zero bytes stops where the standard says. -/
theorem pad_zeros_absorbed (s : SHA256) (message : Bytes) (absorbed : Absorbed s message) :
    Absorbed s.padZeros (message ++ List.replicate ((120 - message.length % 64) % 64) 0) := by
  induction s using padZeros.induct generalizing message with
  | case1 s stops =>
      have length := absorbed_length absorbed
      have none_left : (120 - message.length % 64) % 64 = 0 := by omega
      rw [padZeros, if_pos stops, none_left, List.replicate_zero, List.append_nil]
      exact absorbed
  | case2 s goes ih =>
      have length := absorbed_length absorbed
      have one_more : (120 - message.length % 64) % 64 =
          (120 - (message ++ [0]).length % 64) % 64 + 1 := by
        rw [List.length_append, List.length_singleton]
        omega
      have later := ih (message ++ [0]) (update_absorbed absorbed [0])
      rw [padZeros, if_neg goes, one_more, List.replicate_succ]
      rwa [List.append_assoc] at later

theorem length_bytes_eq (n : Nat) (small : n < 2 ^ 64) :
    lengthBytes (UInt64.ofNat n) = Sha256.bigEndian64 n := by
  apply List.map_congr_left
  intro j member
  have inside := List.mem_range.mp member
  have amount : (7 - j) * 8 < 64 := by omega
  apply UInt8.toNat_inj.mp
  rw [UInt64.toNat_toUInt8, UInt64.toNat_and, UInt64.toNat_shiftRight, UInt64.toNat_ofNat',
    UInt64.toNat_ofNat', UInt8.toNat_ofNat', Nat.mod_eq_of_lt small,
    Nat.mod_eq_of_lt (Nat.lt_trans amount (by decide)), Nat.mod_eq_of_lt amount,
    Nat.shiftRight_eq_div_pow, Nat.mul_comm 8]
  have masked := Nat.and_two_pow_sub_one_eq_mod (n / 2 ^ ((7 - j) * 8)) 8
  exact (congrArg (· % 2 ^ 8) masked).trans (Nat.mod_mod _ _)

theorem hex_word_eq (word : UInt32) : hexWord word = Sha256.hexDigits 8 word.toNat :=
  Sha256.fill_digits 8 word.toNat (by decide) (Nat.lt_of_lt_of_eq word.toNat_lt (by decide))

/-! ## The digest -/

theorem hash_of_words (h : Vector UInt32 8) : (hashOf h).words = h.toList := by
  obtain ⟨⟨list⟩, size⟩ := h
  match list, size with
  | [a, b, c, d, e, f, g, i], _ => rfl

theorem hexdigest_absorbed {s : SHA256} {message : Bytes} (absorbed : Absorbed s message)
    (counted : s.bitLen = UInt64.ofNat message.length * 8) (small : message.length < 2 ^ 61) :
    s.hexdigest = Sha256.hexDigest message := by
  have marked := update_absorbed absorbed [0x80]
  have zeros := pad_zeros_absorbed _ _ marked
  have complete := update_absorbed zeros (lengthBytes s.bitLen)
  have bits : s.bitLen = UInt64.ofNat (8 * message.length) := by
    rw [counted, UInt64.ofNat_mul, UInt64.mul_comm]
    rfl
  have count : (120 - (message ++ [0x80]).length % 64) % 64 = Sha256.zeroCount message.length := by
    rw [List.length_append, List.length_singleton, Sha256.zeroCount]
    omega
  rw [bits, length_bytes_eq _ (by omega), count, List.append_assoc, List.append_assoc] at complete
  have hashed : hashOf (((s.update [0x80]).padZeros.update (lengthBytes s.bitLen)).h) =
      Sha256.hash message := by
    rw [bits, length_bytes_eq _ (by omega)]
    exact complete.hash
  have digits : hexWord = fun word => Sha256.hexDigits 8 word.toNat := funext hex_word_eq
  rw [hexdigest, Sha256.hexDigest, ← hashed, hash_of_words, digits]

/-- However a message is cut into calls of `update`, `hexdigest` returns its SHA-256. -/
theorem hexdigest_sha256 (chunks : List Bytes) (small : chunks.flatten.length < 2 ^ 61) :
    (chunks.foldl update SHA256.create).hexdigest = Sha256.hexDigest chunks.flatten := by
  obtain ⟨absorbed, counted⟩ := updates_absorbed chunks
  exact hexdigest_absorbed absorbed counted small

/-- The message `abc`, cut into three calls. -/
theorem hexdigest_sha256_abc :
    ([[0x61], [], [0x62, 0x63]].foldl update SHA256.create).hexdigest =
      "ba7816bf8f01cfea414140de5dae2223b00361a396177a9cb410ff61f20015ad" :=
  (hexdigest_sha256 [[0x61], [], [0x62, 0x63]] (by decide)).trans (by decide +kernel)

end AmpFormal.CacheDigest
