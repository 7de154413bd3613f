import Mathlib.Data.List.Nodup
import Mathlib.Logic.Function.Basic

/-!
A ledger of names.

The names `0, …, issued - 1` have been given out, one after the other.  Each is at one place
(`place`) or has been retired, and no name is retired twice.  Names are issued to an empty
place (`issue`), retired from the place they are at (`retire`), and places exchange their
names (`move`).  So each name is at one place or has been retired once (`balance`), and where
all places are empty each has been retired (`settled`). -/

namespace HelixKernel

structure Ledger {κ : Type} (issued : Nat) (retired : List Nat) (place : κ → Option Nat) : Prop where
  nodup : retired.Nodup
  old : ∀ n ∈ retired, n < issued
  held : ∀ k n, place k = some n → n < issued ∧ n ∉ retired
  one : ∀ k l n, place k = some n → place l = some n → k = l
  kept : ∀ n < issued, n ∈ retired ∨ ∃ k, place k = some n

namespace Ledger

variable {κ : Type} {issued : Nat} {retired : List Nat} {place place' : κ → Option Nat} {k : κ}
  {n : Nat}

theorem empty : Ledger 0 [] (fun _ : κ => none) := by
  refine ⟨List.nodup_nil, ?_, ?_, ?_, ?_⟩
  · simp
  · simp
  · simp
  · intro n hn
    omega

theorem issue [DecidableEq κ] (h : Ledger issued retired place) (hk : place k = none) :
    Ledger (issued + 1) retired (Function.update place k (some issued)) := by
  -- the new name is at no place and has not been retired
  have hnew : ∀ l n, place l = some n → n ≠ issued := by
    rintro l n hl rfl
    have := (h.held l n hl).1
    omega
  refine ⟨h.nodup, fun n hn => ?_, fun l n hl => ?_, fun l l' n hl hl' => ?_, fun n hn => ?_⟩
  · have := h.old n hn
    omega
  · by_cases hlk : l = k
    · rw [hlk, Function.update_self] at hl
      cases hl
      refine ⟨by omega, fun hmem => ?_⟩
      have := h.old issued hmem
      omega
    · rw [Function.update_of_ne hlk] at hl
      have := h.held l n hl
      exact ⟨by omega, this.2⟩
  · by_cases hlk : l = k
    · by_cases hlk' : l' = k
      · rw [hlk, hlk']
      · rw [hlk, Function.update_self] at hl
        rw [Function.update_of_ne hlk'] at hl'
        cases hl
        exact absurd rfl (hnew l' issued hl')
    · rw [Function.update_of_ne hlk] at hl
      by_cases hlk' : l' = k
      · rw [hlk', Function.update_self] at hl'
        cases hl'
        exact absurd rfl (hnew l issued hl)
      · rw [Function.update_of_ne hlk'] at hl'
        exact h.one l l' n hl hl'
  · by_cases hni : n = issued
    · exact .inr ⟨k, by rw [Function.update_self, hni]⟩
    · rcases h.kept n (by omega) with hmem | ⟨l, hl⟩
      · exact .inl hmem
      · have hlk : l ≠ k := by
          rintro rfl
          rw [hk] at hl
          cases hl
        exact .inr ⟨l, by rw [Function.update_of_ne hlk, hl]⟩

theorem retire [DecidableEq κ] (h : Ledger issued retired place) (hk : place k = some n) :
    Ledger issued (n :: retired) (Function.update place k none) := by
  have hother : ∀ l m, Function.update place k none l = some m → l ≠ k ∧ place l = some m := by
    intro l m hl
    have hlk : l ≠ k := by
      rintro rfl
      rw [Function.update_self] at hl
      cases hl
    rw [Function.update_of_ne hlk] at hl
    exact ⟨hlk, hl⟩
  obtain ⟨hlt, hnew⟩ := h.held k n hk
  refine ⟨List.nodup_cons.mpr ⟨hnew, h.nodup⟩, fun m hm => ?_, fun l m hl => ?_,
    fun l l' m hl hl' => ?_, fun m hm => ?_⟩
  · rcases List.mem_cons.mp hm with rfl | hm
    · exact hlt
    · exact h.old m hm
  · obtain ⟨hlk, hl⟩ := hother l m hl
    obtain ⟨hm, hmem⟩ := h.held l m hl
    refine ⟨hm, fun hc => ?_⟩
    rcases List.mem_cons.mp hc with rfl | hc
    · exact hlk (h.one l k m hl hk)
    · exact hmem hc
  · exact h.one l l' m (hother l m hl).2 (hother l' m hl').2
  · rcases h.kept m hm with hmem | ⟨l, hl⟩
    · exact .inl (List.mem_cons_of_mem n hmem)
    · by_cases hlk : l = k
      · rw [hlk, hk] at hl
        cases hl
        exact .inl List.mem_cons_self
      · exact .inr ⟨l, by rw [Function.update_of_ne hlk, hl]⟩

/-- `src l` is the place that the name at `l` comes from; none is copied and none is lost. -/
theorem move (h : Ledger issued retired place) (src : κ → κ)
    (hsrc : ∀ l n, place' l = some n → place (src l) = some n)
    (hinj : ∀ l l' n, place' l = some n → place' l' = some n → src l = src l' → l = l')
    (hkept : ∀ k n, place k = some n → ∃ l, place' l = some n) : Ledger issued retired place' := by
  refine ⟨h.nodup, h.old, fun l n hl => h.held (src l) n (hsrc l n hl), fun l l' n hl hl' => ?_,
    fun n hn => ?_⟩
  · exact hinj l l' n hl hl' (h.one _ _ n (hsrc l n hl) (hsrc l' n hl'))
  · rcases h.kept n hn with hmem | ⟨k, hk⟩
    · exact .inl hmem
    · exact .inr (hkept k n hk)

/-- Each name has been retired once and is nowhere, or is at one place and has not been. -/
theorem balance (h : Ledger issued retired place) (hn : n < issued) :
    (retired.count n = 1 ∧ ∀ k, place k ≠ some n) ∨
      (retired.count n = 0 ∧ ∃ k, place k = some n ∧ ∀ l, place l = some n → l = k) := by
  by_cases hmem : n ∈ retired
  · refine .inl ⟨List.count_eq_one_of_mem h.nodup hmem, fun k hk => ?_⟩
    exact (h.held k n hk).2 hmem
  · rcases h.kept n hn with hc | ⟨k, hk⟩
    · exact absurd hc hmem
    · exact .inr ⟨List.count_eq_zero.mpr hmem, k, hk, fun l hl => h.one l k n hl hk⟩

/-- Where nothing is held, every name has been retired once. -/
theorem settled (h : Ledger issued retired place) (hnone : ∀ k, place k = none) (hn : n < issued) :
    retired.count n = 1 := by
  rcases h.balance hn with ⟨hcount, -⟩ | ⟨-, k, hk, -⟩
  · exact hcount
  · rw [hnone k] at hk
    cases hk

end Ledger

end HelixKernel
