import FeatherGo.Proofs.Declarations.Lexicon
import FeatherGo.Proofs.Ground.Names
import FeatherGo.Proofs.Types.Texts

/-!
# Texts without the mark of placeholders

The text of a type is made of the names in the type and of punctuation, so it holds no mark of
placeholders if none of the names does (`Ground.unmarked_render`).
-/

namespace FeatherGo.Ground

theorem Unmarked.append {s s' : String} (h : Unmarked s) (h' : Unmarked s') : Unmarked (s ++ s') := by
  rw [Unmarked, String.toList_append, List.mem_append]
  exact fun hmem => hmem.elim h h'

theorem Unmarked.intercalate {sep : String} (hsep : Unmarked sep) {items : List String}
    (h : ∀ s ∈ items, Unmarked s) : Unmarked (sep.intercalate items) := by
  induction items with
  | nil => exact List.not_mem_nil
  | cons s items ih =>
    rw [List.forall_mem_cons] at h
    cases items with
    | nil => simpa using h.1
    | cons s' items =>
      rw [String.intercalate_cons_cons]
      exact (h.1.append hsep).append (ih h.2)

theorem unmarked_parenthesised {items : List String} (h : ∀ s ∈ items, Unmarked s) :
    Unmarked (parenthesised items) := by
  cases items with
  | nil => exact List.not_mem_nil
  | cons s items =>
    exact (Unmarked.append (by decide) (.intercalate (by decide) h)).append (by decide)

theorem unmarked_block {keyword : String} (hk : Unmarked keyword) {items : List String}
    (h : ∀ s ∈ items, Unmarked s) : Unmarked (block keyword items) := by
  cases items with
  | nil => exact hk.append (by decide)
  | cons s items =>
    exact ((hk.append (by decide)).append (.intercalate (by decide) h)).append (by decide)

theorem unmarked_nat (n : Nat) : Unmarked (toString n) := by
  intro h
  rw [Nat.toString_eq_repr, Nat.toList_repr] at h
  have hd := Nat.isDigit_of_mem_toDigits (by decide) (by decide) h
  exact absurd hd (by decide)

theorem unmarked_prim (p : Prim) : Unmarked p.render := by
  obtain ⟨k, u⟩ := p
  cases k <;> cases u <;> decide

/-- **The text of a type holds no mark if no name in the type does.** -/
theorem unmarked_render {L : Lexicon} (hname : ∀ a, L.name a → Unmarked a)
    (hparam : ∀ a, L.param a → Unmarked a) {t : Ty} (ht : t.Over L) : Unmarked t.render := by
  induction t using Ty.induction with
  | param a => exact hparam a (Ty.over_param.1 ht)
  | named c args ih =>
    obtain ⟨hc, hargs⟩ := Ty.over_named.1 ht
    refine (hname c hc).append (unmarked_parenthesised fun s hs => ?_)
    obtain ⟨t, hmem, rfl⟩ := Ty.mem_renderAll.1 hs
    exact ih t hmem (hargs t hmem)
  | prim p => exact unmarked_prim p
  | struct fs ih =>
    obtain ⟨hnames, hfs⟩ := Ty.over_struct.1 ht
    refine unmarked_block (by decide) fun s hs => ?_
    obtain ⟨f, hf, rfl⟩ := Slot.mem_renderAll.1 hs
    exact ((hname _ (hnames f hf)).append (by decide)).append (ih f hf (hfs f hf))
  | interface ms ih =>
    refine unmarked_block (by decide) fun s hs => ?_
    obtain ⟨m, hm, rfl⟩ := Member.mem_renderAll.1 hs
    have hover := Ty.over_interface.1 ht m hm
    have htypes : ∀ t ∈ m.types, Unmarked t.render := fun t ht => ih m hm t ht (hover.types t ht)
    cases m with
    | method sig =>
      have hname' := hname _ (hover.labels sig.name List.mem_cons_self)
      refine ((((hname'.append (unmarked_parenthesised fun s hs => ?_)).append (by decide)).append
        (.intercalate (by decide) fun s hs => ?_)).append (by decide)).append ?_
      · obtain ⟨f, hf, rfl⟩ := Slot.mem_renderAll.1 hs
        exact ((hparam _ (hover.formals _ (List.mem_map_of_mem hf))).append (by decide)).append
          (htypes _ (Signature.mem_types.2 (.inl ⟨f, hf, rfl⟩)))
      · obtain ⟨p, hp, rfl⟩ := Slot.mem_renderAll.1 hs
        have hlabel := hover.labels p.name (List.mem_cons_of_mem _ (List.mem_map_of_mem hp))
        exact ((hname _ hlabel).append (by decide)).append
          (htypes _ (Signature.mem_types.2 (.inr (.inl ⟨p, hp, rfl⟩))))
      · exact htypes _ (Signature.mem_types.2 (.inr (.inr rfl)))
    | embed c args =>
      refine (hname c (hover.labels c List.mem_cons_self)).append (unmarked_parenthesised fun s hs => ?_)
      obtain ⟨t, hmem, rfl⟩ := Ty.mem_renderAll.1 hs
      exact htypes t hmem
  | var n => exact Unmarked.append (by decide) (unmarked_nat n)

end FeatherGo.Ground
