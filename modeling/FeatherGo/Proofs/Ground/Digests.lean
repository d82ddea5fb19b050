import FeatherGo.Command.Digest
import FeatherGo.Proofs.Ground.Names
import Mathlib.Data.Set.Function

/-!
# What the name of a placeholder tells

The name of a placeholder tells the name of a method and the digest of its signature
(`Ground.placeholderName_eq_iff`). A digest is fed the bounds of the formals, the types of the parameters and
the result one after the other. Where it tells apart what it is fed, signatures with as many formals as each
other agree exactly if their placeholders have the same name (`Ground.alphaEq_iff_placeholderName`).

What a digest is fed does not tell where the bounds end and the types of the parameters begin: under every
digest a method with a formal and no parameter and one with a parameter of the same type and no formal have
one name (`Ground.not_alphaEq_of_placeholderName`).
-/

namespace FeatherGo.Ground

/-! ## Reading hexadecimal back -/

/-- The digits of a number in base sixteen. -/
theorem exists_of_mem_toDigits {n : Nat} {c : Char} (h : c ∈ Nat.toDigits 16 n) :
    ∃ d < 16, c = Nat.digitChar d := by
  induction n using Nat.strongRecOn with
  | ind n ih =>
    rw [Nat.toDigits_eq_if (by decide)] at h
    split at h
    · exact ⟨n, ‹_›, List.mem_singleton.1 h⟩
    · rcases List.mem_append.1 h with h | h
      · exact ih _ (by omega) h
      · exact ⟨n % 16, by omega, List.mem_singleton.1 h⟩

theorem digitChar_inj {d e : Nat} (hd : d < 16) (he : e < 16)
    (h : Nat.digitChar d = Nat.digitChar e) : d = e := by
  have hall : ∀ d < 16, ∀ e < 16, Nat.digitChar d = Nat.digitChar e → d = e := by decide
  exact hall d hd e he h

theorem toDigits_inj {n m : Nat} (h : Nat.toDigits 16 n = Nat.toDigits 16 m) : n = m := by
  induction n using Nat.strongRecOn generalizing m with
  | ind n ih =>
    have hpos (k : Nat) : 0 < (Nat.toDigits 16 k).length := Nat.length_toDigits_pos
    have hlen := congrArg List.length h
    rw [Nat.toDigits_eq_if (by decide), @Nat.toDigits_eq_if 16 m (by decide)] at h hlen
    split at h <;> split at h
    · exact digitChar_inj ‹_› ‹_› (List.cons.inj h).1
    · rename_i hn hm
      rw [if_pos hn, if_neg hm, List.length_append, List.length_singleton,
        List.length_singleton] at hlen
      have := hpos (m / 16)
      omega
    · rename_i hn hm
      rw [if_neg hn, if_pos hm, List.length_append, List.length_singleton,
        List.length_singleton] at hlen
      have := hpos (n / 16)
      omega
    · obtain ⟨hdiv, hmod⟩ := List.append_inj' h rfl
      have hdiv := ih (n / 16) (by omega) hdiv
      have hmod := digitChar_inj (by omega) (by omega) (List.cons.inj hmod).1
      omega

theorem mark_notMem_toDigits (n : Nat) : 'ǂ' ∉ Nat.toDigits 16 n := by
  intro h
  obtain ⟨d, hd, he⟩ := exists_of_mem_toDigits h
  have hall : ∀ d < 16, 'ǂ' ≠ Nat.digitChar d := by decide
  exact hall d hd he

/-! ## Placeholders -/

/-- What a digest is fed of signatures with as many formals as each other tells them apart. -/
theorem alphaEq_iff_digested {a b : Signature} : a.alphaEq b = true
    ↔ a.formals.length = b.formals.length ∧ digested a = digested b := by
  have hfed : digested a = digested b ↔ a.name = b.name ∧ a.canonical.types = b.canonical.types :=
    Prod.ext_iff
  rw [Signature.alphaEq_iff, hfed]
  constructor
  · rintro ⟨hname, hf, -, htypes⟩
    exact ⟨hf, hname, htypes⟩
  · rintro ⟨hf, hname, htypes⟩
    have hlen (s : Signature) : s.canonical.types.length = s.formals.length + s.params.length + 1 := by
      rw [Signature.types_canonical, List.length_map]
      simp [Signature.types, Nat.add_assoc]
    have htotal := congrArg List.length htypes
    rw [hlen, hlen] at htotal
    exact ⟨hname, hf, by omega, htypes⟩

section

variable [Digest]

/-- **The name of a placeholder tells the name and the digest of a signature**, and no more. -/
theorem placeholderName_eq_iff {a b : Signature} : placeholderName a = placeholderName b
    ↔ a.name = b.name ∧ Digest.of (digested a) = Digest.of (digested b) := by
  constructor
  · intro h
    have hlist := congrArg String.toList h
    rw [toList_placeholderName, toList_placeholderName] at hlist
    -- Behind the mark stand digits alone, so it is the last one in the name.
    have hdigits := congrArg List.reverse hlist
    simp only [List.reverse_append, List.reverse_cons, List.append_assoc, List.singleton_append] at hdigits
    have hmark (s : Signature) : 'ǂ' ∉ (Nat.toDigits 16 (Digest.of (digested s)).toNat).reverse :=
      fun hm => mark_notMem_toDigits _ (List.mem_reverse.1 hm)
    have hword := toDigits_inj (List.reverse_inj.1 (append_mark_inj (hmark a) (hmark b) hdigits))
    rw [hword] at hlist
    exact ⟨String.toList_inj.1 (List.append_cancel_right hlist), UInt64.toNat_inj.1 hword⟩
  · rintro ⟨hname, hdigest⟩
    rw [placeholderName, placeholderName, hname, hdigest]

/-- **Where the digest tells apart what it is fed, signatures with as many formals as each other agree
exactly if their placeholders have the same name.** -/
theorem alphaEq_iff_placeholderName {S : Set Signature} (hdigest : Set.InjOn Digest.of (digested '' S))
    {a b : Signature} (ha : a ∈ S) (hb : b ∈ S) : a.alphaEq b = true
      ↔ a.formals.length = b.formals.length ∧ placeholderName a = placeholderName b := by
  have hfed : digested a = digested b
      ↔ a.name = b.name ∧ Digest.of (digested a) = Digest.of (digested b) :=
    ⟨fun h => ⟨congrArg Prod.fst h, congrArg Digest.of h⟩,
      fun h => hdigest (Set.mem_image_of_mem _ ha) (Set.mem_image_of_mem _ hb) h.2⟩
  rw [alphaEq_iff_digested, placeholderName_eq_iff, hfed]

end

/-- Three signatures of a method `id` with a formal and a parameter of its type. The second differs from the
first in names alone, the third in its result. -/
def identities : List Signature :=
  let any := Ty.named "Any" []
  [⟨"id", [⟨"T", any⟩], [⟨"x", .param "T"⟩], .param "T"⟩,
    ⟨"id", [⟨"U", any⟩], [⟨"y", .param "U"⟩], .param "U"⟩,
    ⟨"id", [⟨"U", any⟩], [⟨"y", .param "U"⟩], any⟩]

theorem identities_alphaEq_iff : Set.InjOn Digest.of (digested '' {s | s ∈ identities})
    ∧ ∀ a ∈ identities, ∀ b ∈ identities, a.alphaEq b = true
      ↔ a.formals.length = b.formals.length ∧ placeholderName a = placeholderName b := by
  have hall : ∀ a ∈ identities, ∀ b ∈ identities,
      Digest.of (digested a) = Digest.of (digested b) → digested a = digested b := by decide +kernel
  have hdigest : Set.InjOn Digest.of (digested '' {s | s ∈ identities}) := by
    rintro _ ⟨a, ha, rfl⟩ _ ⟨b, hb, rfl⟩ h
    exact hall a ha b hb h
  exact ⟨hdigest, fun a ha b hb => alphaEq_iff_placeholderName hdigest ha hb⟩

/-- A bound and a parameter of the same type give one name, whatever the digest. -/
theorem not_alphaEq_of_placeholderName :
    ¬∀ [Digest] (a b : Signature), 'ǂ' ∉ a.name.toList → 'ǂ' ∉ b.name.toList →
      Set.InjOn Digest.of {digested a, digested b} →
      (placeholderName a = placeholderName b ↔ a.alphaEq b = true) := by
  intro h
  let bounded : Signature := ⟨"m", [⟨"a", .named "Any" []⟩], [], .prim (.typed .int32)⟩
  let given : Signature := ⟨"m", [], [⟨"x", .named "Any" []⟩], .prim (.typed .int32)⟩
  have hfed : digested bounded = digested given := by decide +kernel
  have hdigest : Set.InjOn Digest.of {digested bounded, digested given} := by
    rw [hfed, Set.pair_eq_singleton]
    exact Set.injOn_singleton _ _
  have hname : placeholderName bounded = placeholderName given :=
    placeholderName_eq_iff.2 ⟨rfl, congrArg Digest.of hfed⟩
  exact absurd ((h bounded given (by decide) (by decide) hdigest).1 hname) (by decide +kernel)

end FeatherGo.Ground
