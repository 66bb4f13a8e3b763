import AmpFormal.FlashAttnDispatch
import Mathlib.Algebra.Field.Rat
import Mathlib.Algebra.Order.Ring.Rat

/-!
# The model compatibility check

A transcription of `check_model`, which reports whether the attention kernel can
serve a model, against the dispatch of that kernel. The text of a quotient of two
Python integers is a parameter. A division by zero has no result.
-/

namespace AmpFormal.ModelCheck

open AmpFormal.FlashAttnDispatch

set_option autoImplicit false

/-- The entries of a configuration that `check_model` reads. -/
structure ModelConfig where
  hiddenSize : Int
  numAttentionHeads : Int
  numKeyValueHeads : Int
  deriving DecidableEq, Repr

def modelConfigs : List (String × ModelConfig) :=
  [("mistral-7b-v0.1", ⟨4096, 32, 8⟩),
   ("tinyllama-1.1b-chat-v1.0", ⟨2048, 32, 4⟩),
   ("qwen2-7b", ⟨3584, 28, 4⟩),
   ("phi-3-mini-4k-instruct", ⟨3072, 32, 32⟩),
   ("example-bad-gqa-fictional", ⟨3840, 30, 7⟩)]

structure Check where
  description : String
  ok : Bool
  extra : Option String
  deriving DecidableEq, Repr

/-- `//` and `%` of Python: the quotient is rounded down. -/
def checkModel (quotientText : Int → Int → String) (cfg : ModelConfig) :
    Option (Int × List Check) :=
  let hidden := cfg.hiddenSize
  let heads := cfg.numAttentionHeads
  let kvHeads := cfg.numKeyValueHeads
  if heads = 0 ∨ kvHeads = 0 then none
  else
    let headDim := hidden.fdiv heads
    let whole := decide (hidden.fmod heads = 0)
    let grouped := decide (heads.fmod kvHeads = 0)
    let quotient := quotientText hidden heads
    let share := quotientText heads kvHeads
    some (headDim,
      [{ description := "head_dim is a whole number " ++
           "(hidden_size divisible by num_attention_heads)"
         ok := whole
         extra := some s!"hidden_size={hidden} / num_attention_heads={heads} = {quotient}" },
       { description := s!"head_dim={headDim} is a multiple of 16 (kernels/flash_attn.cuh)"
         ok := headDim.fmod 16 = 0
         extra := none },
       { description := s!"head_dim={headDim} <= 256 (kernels/flash_attn.cuh)"
         ok := headDim ≤ 256
         extra := none },
       { description := s!"num_key_value_heads={kvHeads} <= num_attention_heads={heads}"
         ok := kvHeads ≤ heads
         extra := none },
       { description :=
           s!"num_attention_heads={heads} evenly divisible by num_key_value_heads={kvHeads} " ++
           "(flash_attn.cu:90 GQA grouping: hkv = hq / (H_q / H_kv))"
         ok := grouped
         extra := if grouped then none else
           some (s!"{heads}/{kvHeads} = {share} -- integer division would silently " ++
             "misgroup KV heads, not crash") }])

/-- `check_model` returns and every check is true. -/
def Compatible (quotientText : Int → Int → String) (cfg : ModelConfig) : Prop :=
  ∃ headDim checks, checkModel quotientText cfg = some (headDim, checks) ∧
    ∀ check ∈ checks, check.ok = true

instance (quotientText : Int → Int → String) (cfg : ModelConfig) :
    Decidable (Compatible quotientText cfg) :=
  decidable_of_iff ((checkModel quotientText cfg).any fun report => report.2.all Check.ok) <| by
    simp [Compatible, Option.any_eq_true]

theorem compatible_iff {quotientText : Int → Int → String} {cfg : ModelConfig}
    (heads : 0 < cfg.numAttentionHeads) (keys : 0 < cfg.numKeyValueHeads) :
    Compatible quotientText cfg ↔ cfg.numAttentionHeads ∣ cfg.hiddenSize ∧
      16 ∣ cfg.hiddenSize / cfg.numAttentionHeads ∧
      cfg.hiddenSize / cfg.numAttentionHeads ≤ 256 ∧
      cfg.numKeyValueHeads ∣ cfg.numAttentionHeads := by
  have share : cfg.numKeyValueHeads ∣ cfg.numAttentionHeads →
      cfg.numKeyValueHeads ≤ cfg.numAttentionHeads := Int.le_of_dvd heads
  have nonzero : ¬(cfg.numAttentionHeads = 0 ∨ cfg.numKeyValueHeads = 0) := by omega
  have each : (∀ headDim checks, checkModel quotientText cfg = some (headDim, checks) →
      ((∀ check ∈ checks, check.ok = true) ↔ cfg.numAttentionHeads ∣ cfg.hiddenSize ∧
        16 ∣ cfg.hiddenSize / cfg.numAttentionHeads ∧
        cfg.hiddenSize / cfg.numAttentionHeads ≤ 256 ∧
        cfg.numKeyValueHeads ≤ cfg.numAttentionHeads ∧
        cfg.numKeyValueHeads ∣ cfg.numAttentionHeads)) := by
    intro headDim checks returned
    unfold checkModel at returned
    dsimp only at returned
    rw [if_neg nonzero] at returned
    cases returned
    simp only [List.forall_mem_cons, List.not_mem_nil, false_implies, implies_true, and_true,
      decide_eq_true_eq, Int.fdiv_eq_ediv_of_nonneg _ heads.le,
      Int.fmod_eq_emod_of_nonneg _ heads.le, Int.fmod_eq_emod_of_nonneg _ keys.le,
      Int.fmod_eq_emod_of_nonneg _ (by decide : (0 : Int) ≤ 16), ← Int.dvd_iff_emod_eq_zero]
  constructor
  · rintro ⟨headDim, checks, returned, passed⟩
    obtain ⟨whole, sixteen, bounded, -, grouped⟩ := (each headDim checks returned).mp passed
    exact ⟨whole, sixteen, bounded, grouped⟩
  · rintro ⟨whole, sixteen, bounded, grouped⟩
    obtain ⟨headDim, checks, returned⟩ : ∃ headDim checks,
        checkModel quotientText cfg = some (headDim, checks) := by
      unfold checkModel
      dsimp only
      rw [if_neg nonzero]
      exact ⟨_, _, rfl⟩
    exact ⟨headDim, checks, returned,
      (each headDim checks returned).mpr ⟨whole, sixteen, bounded, share grouped, grouped⟩⟩

/-- The kernel is launched, and every KV head serves its share of query heads. -/
structure Serves {R : Type*} [Zero R] [LT R] [DecidableLT R] (invSqrt : Int → R) (maxSmem : Nat)
    (batch seqQ seqKv : Int) (cfg : AttnCfg R) : Prop where
  launches : ∃ launch, dispatchFlashAttn invSqrt maxSmem batch seqQ seqKv cfg = .ok launch
  inRange : ∀ hq, 0 ≤ hq → hq < cfg.numQHeads →
    0 ≤ kvHead cfg.numQHeads cfg.numKvHeads hq ∧
      kvHead cfg.numQHeads cfg.numKvHeads hq < cfg.numKvHeads
  shared : ∀ hkv, 0 ≤ hkv → hkv < cfg.numKvHeads →
    (((Finset.Ico 0 cfg.numQHeads).filter fun hq =>
      kvHead cfg.numQHeads cfg.numKvHeads hq = hkv).card : Int) = cfg.numQHeads / cfg.numKvHeads

/-- The attention of a model, with the default tiles. -/
def attnCfgOf {R : Type*} [Zero R] (cfg : ModelConfig) (causal : Bool) (scale : R) : AttnCfg R :=
  { AttnCfg.initial R with
    numQHeads := cfg.numAttentionHeads
    numKvHeads := cfg.numKeyValueHeads
    headDim := cfg.hiddenSize / cfg.numAttentionHeads
    causal, scale }

/-- A model that passes the check is served exactly when its head dimension has a
kernel; the grouping of the heads is always right. -/
theorem compatible_serves_iff {R : Type*} [Zero R] [LT R] [DecidableLT R] (invSqrt : Int → R)
    (quotientText : Int → Int → String) {cfg : ModelConfig}
    (heads : 0 < cfg.numAttentionHeads) (keys : 0 < cfg.numKeyValueHeads)
    (compatible : Compatible quotientText cfg) (maxSmem : Nat) (batch seqQ seqKv : Int)
    (causal : Bool) (scale : R) :
    Serves invSqrt maxSmem batch seqQ seqKv (attnCfgOf cfg causal scale) ↔
      cfg.hiddenSize / cfg.numAttentionHeads = 64 ∨
        cfg.hiddenSize / cfg.numAttentionHeads = 128 := by
  have launches := default_tiles_launch_iff invSqrt maxSmem batch seqQ seqKv
    (attnCfgOf cfg causal scale) rfl rfl
  obtain ⟨-, -, -, group, whole⟩ := (compatible_iff heads keys).mp compatible
  rw [mul_comm] at whole
  have positive : 0 < group := by
    by_contra none
    have := mul_nonpos_of_nonpos_of_nonneg (not_lt.mp none) keys.le
    omega
  constructor
  · intro serves
    exact launches.mp serves.launches
  · intro dimension
    refine ⟨launches.mpr dimension, ?_, ?_⟩
    · exact fun hq head below => kv_head_range keys positive whole head below
    · intro hkv head below
      change _ = cfg.numAttentionHeads / cfg.numKeyValueHeads
      rw [whole, Int.mul_ediv_cancel _ keys.ne']
      exact kv_head_share keys positive whole head below

theorem compatible_serves_mistral : Serves (R := ℚ) (fun _ => 1) 65536 1 4096 4096
    (attnCfgOf ⟨4096, 32, 8⟩ true 0) :=
  (compatible_serves_iff (fun _ => 1) (fun _ _ => "128.0") (by decide) (by decide)
    (by decide +kernel) 65536 1 4096 4096 true 0).mpr (.inr rfl)

/-- A built-in model with a head dimension of 96 passes every check, and no
kernel is launched for it. -/
theorem phi_three_passes_and_is_refused :
    ("phi-3-mini-4k-instruct", ⟨3072, 32, 32⟩) ∈ modelConfigs ∧
    Compatible (fun _ _ => "96.0") ⟨3072, 32, 32⟩ ∧
    (dispatchFlashAttn (R := ℚ) (fun _ => 1) 65536 1 4096 4096
      (attnCfgOf ⟨3072, 32, 32⟩ true 0)).toOption.isNone ∧
    ¬ Serves (R := ℚ) (fun _ => 1) 65536 1 4096 4096 (attnCfgOf ⟨3072, 32, 32⟩ true 0) := by
  have refused : (dispatchFlashAttn (R := ℚ) (fun _ => 1) 65536 1 4096 4096
      (attnCfgOf ⟨3072, 32, 32⟩ true 0)).toOption.isNone := by decide +kernel
  refine ⟨by decide, by decide +kernel, refused, fun serves => ?_⟩
  obtain ⟨launch, launched⟩ := serves.launches
  rw [launched] at refused
  cases refused

end AmpFormal.ModelCheck
