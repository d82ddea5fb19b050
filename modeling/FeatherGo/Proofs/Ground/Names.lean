import FeatherGo.Ground.Name
import FeatherGo.Proofs.Types.Alpha
import Mathlib.Data.List.Nodup
import Mathlib.Data.List.Perm.Subperm

/-!
# Ground names stay apart

Where declared names hold none of the characters that ground names use, a ground name can be read
back: it tells the declared name and the arguments (`Ground.typeName_inj`). Where they do not hold the
mark of placeholders, it tells whether it is a placeholder's (`Ground.methodName_ne_placeholderName`)
and of which method (`Ground.name_eq_of_placeholderName`).
-/

namespace FeatherGo.Ground

/-! ## Clean names -/

/-- The characters that ground names use, and those that they stand for. -/
def marks : List Char := [' ', '(', ')', ',', 'ᐸ', 'ᐳ', 'ˏ', 'ǂ']

/-- A name holds no mark. -/
def Clean (s : String) : Prop := ∀ c ∈ s.toList, c ∉ marks

instance (s : String) : Decidable (Clean s) :=
  List.decidableBAll (· ∉ marks) s.toList

theorem nameChar_of_notMem {c : Char} (h : c ∉ marks) : nameChar c = [c] := by
  simp only [marks, List.mem_cons, not_or] at h
  obtain ⟨h1, h2, h3, h4, -⟩ := h
  unfold nameChar
  split <;> simp_all

theorem Clean.flatMap_nameChar {s : String} (h : Clean s) :
    s.toList.flatMap nameChar = s.toList := by
  have hlist : ∀ l : List Char, (∀ c ∈ l, c ∉ marks) → l.flatMap nameChar = l := by
    intro l hl
    induction l with
    | nil => rfl
    | cons c l ih =>
      rw [List.forall_mem_cons] at hl
      rw [List.flatMap_cons, nameChar_of_notMem hl.1, ih hl.2]
      rfl
  exact hlist _ h

/-- A text that is empty or begins with a mark. -/
def Ends (l : List Char) : Prop := ∀ c ∈ l.head?, c ∈ marks

/-- Clean names before marks can be told. -/
theorem Clean.append_inj {s s' : String} (h : Clean s) (h' : Clean s') {r r' : List Char}
    (hr : Ends r) (hr' : Ends r') (he : s.toList ++ r = s'.toList ++ r') : s = s' ∧ r = r' := by
  have hlist : ∀ l l' : List Char, (∀ c ∈ l, c ∉ marks) → (∀ c ∈ l', c ∉ marks) →
      l ++ r = l' ++ r' → l = l' ∧ r = r' := by
    intro l
    induction l with
    | nil =>
      intro l' _ hl' he
      cases l' with
      | nil => exact ⟨rfl, he⟩
      | cons c l' =>
        rw [List.nil_append, List.cons_append] at he
        rw [List.forall_mem_cons] at hl'
        exact absurd (hr c (by rw [he]; rfl)) hl'.1
    | cons c l ih =>
      intro l' hl hl' he
      rw [List.forall_mem_cons] at hl
      cases l' with
      | nil =>
        rw [List.nil_append, List.cons_append] at he
        exact absurd (hr' c (by rw [← he]; rfl)) hl.1
      | cons c' l' =>
        rw [List.forall_mem_cons] at hl'
        obtain ⟨rfl, htail⟩ := List.cons.inj he
        obtain ⟨rfl, hrest⟩ := ih l' hl.2 hl'.2 htail
        exact ⟨rfl, hrest⟩
  obtain ⟨hs, hrest⟩ := hlist _ _ h h' he
  exact ⟨String.toList_inj.1 hs, hrest⟩

/-! ## The characters of an instance -/

/-- A type whose names are clean and none of a primitive type, without untyped parts. -/
inductive Nameable : Ty → Prop
  | named {c : String} {args : List Ty} (clean : Clean c) (other : ∀ k : Kind, c ≠ k.name)
      (nameable : ∀ a ∈ args, Nameable a) : Nameable (.named c args)
  | prim {p : Prim} (typed : p.untyped = false) : Nameable (.prim p)

/-- The characters of a type in a name. -/
def chars (t : Ty) : List Char := t.render.toList.flatMap nameChar

/-- The characters of the arguments after the first one in a name. -/
def tailChars : List Ty → List Char
  | [] => ['ᐳ']
  | t :: ts => 'ˏ' :: (chars t ++ tailChars ts)

/-- The characters of arguments in a name. -/
def applicationChars : List Ty → List Char
  | [] => []
  | t :: ts => 'ᐸ' :: (chars t ++ tailChars ts)

/-- What follows an argument. -/
def Delimited (r : List Char) : Prop := r.head? = some 'ˏ' ∨ r.head? = some 'ᐳ'

theorem Delimited.ends {r : List Char} (h : Delimited r) : Ends r := by
  intro c hc
  rw [Option.mem_def] at hc
  rcases h with h | h
  all_goals
    rw [h] at hc
    obtain rfl := Option.some.inj hc
    decide

theorem delimited_tailChars (ts : List Ty) (r : List Char) : Delimited (tailChars ts ++ r) := by
  cases ts with
  | nil => exact .inr rfl
  | cons t ts => exact .inl rfl

theorem ends_applicationChars (args : List Ty) {r : List Char} (hr : Ends r) :
    Ends (applicationChars args ++ r) := by
  cases args with
  | nil => exact hr
  | cons t ts =>
    intro c hc
    obtain rfl := Option.some.inj hc
    decide

theorem ends_nil : Ends [] := fun c hc => by cases hc

theorem ends_application (args : List Ty) : Ends (applicationChars args) := by
  rw [← List.append_nil (applicationChars args)]
  exact ends_applicationChars args ends_nil

theorem flatMap_nameChar_parenthesised (args : List Ty) :
    (parenthesised (Ty.renderAll args)).toList.flatMap nameChar = applicationChars args := by
  have hrest : ∀ (t : Ty) (ts : List Ty),
      ((", ".intercalate (t.render :: Ty.renderAll ts)).toList ++ [')']).flatMap nameChar
        = chars t ++ tailChars ts := by
    intro t ts
    induction ts generalizing t with
    | nil => simp [Ty.renderAll, tailChars, chars, nameChar]
    | cons u us ih =>
      rw [Ty.renderAll, String.intercalate_cons_cons, String.toList_append, String.toList_append,
        List.append_assoc, List.append_assoc, List.flatMap_append, List.flatMap_append, ih]
      rfl
  cases args with
  | nil => rfl
  | cons t ts =>
    have happ : (parenthesised (Ty.renderAll (t :: ts))).toList
        = '(' :: ((", ".intercalate (t.render :: Ty.renderAll ts)).toList ++ [')']) := by
      change ("(" ++ ", ".intercalate (t.render :: Ty.renderAll ts) ++ ")").toList = _
      rw [String.toList_append, String.toList_append, List.append_assoc]
      rfl
    rw [happ, List.flatMap_cons, hrest]
    rfl

theorem chars_named {c : String} (hc : Clean c) (args : List Ty) :
    chars (.named c args) = c.toList ++ applicationChars args := by
  rw [chars, Ty.render, String.toList_append, List.flatMap_append, hc.flatMap_nameChar,
    flatMap_nameChar_parenthesised]

theorem clean_kindName (k : Kind) : Clean k.name := by
  cases k <;> decide

theorem kindName_injective {k k' : Kind} (h : k.name = k'.name) : k = k' := by
  cases k <;> cases k' <;> first | rfl | (revert h; decide)

theorem chars_prim {p : Prim} (hp : p.untyped = false) : chars (.prim p) = p.kind.name.toList := by
  rw [chars, Ty.render, Prim.render, hp, if_neg (by simp), (clean_kindName _).flatMap_nameChar]

/-! ## Reading names back -/

/-- The characters of a type can be read back from a text that goes on with a delimiter. -/
def Readable (t : Ty) : Prop :=
  ∀ {t' : Ty} {r r' : List Char}, Nameable t' → Delimited r → Delimited r' →
    chars t ++ r = chars t' ++ r' → t = t' ∧ r = r'

theorem tailChars_inj {us us' : List Ty} (hus : ∀ a ∈ us, Readable a)
    (hus' : ∀ a ∈ us', Nameable a) {r r' : List Char}
    (h : tailChars us ++ r = tailChars us' ++ r') : us = us' ∧ r = r' := by
  induction us generalizing us' with
  | nil =>
    cases us' with
    | nil => exact ⟨rfl, (List.cons.inj h).2⟩
    | cons u' us' => exact absurd (List.cons.inj h).1 (by decide)
  | cons u us ih =>
    cases us' with
    | nil => exact absurd (List.cons.inj h).1 (by decide)
    | cons u' us' =>
      rw [List.forall_mem_cons] at hus hus'
      have h : chars u ++ tailChars us ++ r = chars u' ++ tailChars us' ++ r' := (List.cons.inj h).2
      rw [List.append_assoc, List.append_assoc] at h
      obtain ⟨rfl, htail⟩ :=
        hus.1 hus'.1 (delimited_tailChars us r) (delimited_tailChars us' r') h
      obtain ⟨rfl, hr⟩ := ih hus.2 hus'.2 htail
      exact ⟨rfl, hr⟩

theorem applicationChars_inj {us us' : List Ty} (hus : ∀ a ∈ us, Readable a)
    (hus' : ∀ a ∈ us', Nameable a) {r r' : List Char} (hr : r.head? ≠ some 'ᐸ')
    (hr' : r'.head? ≠ some 'ᐸ') (h : applicationChars us ++ r = applicationChars us' ++ r') :
    us = us' ∧ r = r' := by
  cases us with
  | nil =>
    cases us' with
    | nil => exact ⟨rfl, h⟩
    | cons u' us' =>
      rw [applicationChars, List.nil_append] at h
      rw [h] at hr
      exact absurd rfl hr
  | cons u us =>
    cases us' with
    | nil =>
      rw [applicationChars, applicationChars, List.nil_append] at h
      rw [← h] at hr'
      exact absurd rfl hr'
    | cons u' us' =>
      rw [List.forall_mem_cons] at hus hus'
      have h : chars u ++ tailChars us ++ r = chars u' ++ tailChars us' ++ r' := (List.cons.inj h).2
      rw [List.append_assoc, List.append_assoc] at h
      obtain ⟨rfl, htail⟩ :=
        hus.1 hus'.1 (delimited_tailChars us r) (delimited_tailChars us' r') h
      obtain ⟨rfl, hrest⟩ := tailChars_inj hus.2 hus'.2 htail
      exact ⟨rfl, hrest⟩

theorem Delimited.head?_ne {r : List Char} (h : Delimited r) : r.head? ≠ some 'ᐸ' := by
  rcases h with h | h <;> simp [h]

theorem Nameable.readable {t : Ty} (ht : Nameable t) : Readable t := by
  induction ht with
  | @named c args clean other _ ih =>
    intro t' r r' ht' hr hr' h
    rw [chars_named clean, List.append_assoc] at h
    cases ht' with
    | @named c' args' clean' other' nameable' =>
      rw [chars_named clean', List.append_assoc] at h
      obtain ⟨rfl, hargs⟩ := clean.append_inj clean' (ends_applicationChars args hr.ends)
        (ends_applicationChars args' hr'.ends) h
      obtain ⟨rfl, hrest⟩ :=
        applicationChars_inj (fun a ha => ih a ha) nameable' hr.head?_ne hr'.head?_ne hargs
      exact ⟨rfl, hrest⟩
    | @prim p typed =>
      rw [chars_prim typed] at h
      exact absurd (clean.append_inj (clean_kindName _) (ends_applicationChars args hr.ends)
        hr'.ends h).1 (other p.kind)
  | @prim p typed =>
    intro t' r r' ht' hr hr' h
    rw [chars_prim typed] at h
    cases ht' with
    | @named c' args' clean' other' nameable' =>
      rw [chars_named clean', List.append_assoc] at h
      exact absurd ((clean_kindName _).append_inj clean' hr.ends
        (ends_applicationChars args' hr'.ends) h).1.symm (other' p.kind)
    | @prim p' typed' =>
      rw [chars_prim typed'] at h
      obtain ⟨hk, hrest⟩ :=
        (clean_kindName _).append_inj (clean_kindName _) hr.ends hr'.ends h
      obtain ⟨k, u⟩ := p
      obtain ⟨k', u'⟩ := p'
      obtain rfl := kindName_injective hk
      simp only at typed typed'
      rw [typed, typed']
      exact ⟨rfl, hrest⟩

theorem toList_typeName {c : String} (hc : Clean c) (args : List Ty) :
    (typeName c args).toList = c.toList ++ applicationChars args := by
  rw [typeName]
  split
  · rename_i hargs
    rw [List.isEmpty_iff.1 hargs, applicationChars, List.append_nil]
  · rw [nameOf, String.toList_ofList, ← chars_named hc]
    rfl

/-- A method at type arguments is named as a type at arguments is. -/
theorem methodName_eq (m : String) (ts : List Ty) : methodName m ts = typeName m ts := rfl

/-- **A ground name tells the declared name and the arguments.** -/
theorem typeName_inj {c c' : String} {args args' : List Ty} (hc : Clean c) (hc' : Clean c')
    (hargs : ∀ a ∈ args, Nameable a) (hargs' : ∀ a ∈ args', Nameable a)
    (h : typeName c args = typeName c' args') : c = c' ∧ args = args' := by
  have hlist := congrArg String.toList h
  rw [toList_typeName hc, toList_typeName hc'] at hlist
  obtain ⟨rfl, happ⟩ :=
    hc.append_inj hc' (ends_application args) (ends_application args') hlist
  have hnil : ([] : List Char).head? ≠ some 'ᐸ' := by simp
  refine ⟨rfl, (applicationChars_inj (fun a ha => (hargs a ha).readable) hargs' hnil hnil ?_).1⟩
  rw [happ]

/-- The ground name of a type tells the type. -/
theorem Nameable.typeName_inj {c c' : String} {args args' : List Ty}
    (h : Nameable (.named c args)) (h' : Nameable (.named c' args'))
    (he : typeName c args = typeName c' args') : Ty.named c args = .named c' args' := by
  cases h with
  | named clean _ nameable =>
    cases h' with
    | named clean' _ nameable' =>
      obtain ⟨rfl, rfl⟩ := Ground.typeName_inj clean clean' nameable nameable' he
      rfl

/-- A ground name at arguments, as its characters. -/
theorem toList_typeName_cons (c : String) (t : Ty) (ts : List Ty) :
    (typeName c (t :: ts)).toList = c.toList.flatMap nameChar ++ applicationChars (t :: ts) := by
  have hargs : (parenthesised (Ty.renderAll (t :: ts))).toList.flatMap nameChar
      = applicationChars (t :: ts) := flatMap_nameChar_parenthesised _
  rw [typeName, if_neg (by simp), nameOf, String.toList_ofList, Ty.render, String.toList_append,
    List.flatMap_append, hargs]

/-- A clean name is not that of an instance at type arguments. -/
theorem Clean.ne_typeName {a : String} (h : Clean a) (c : String) (t : Ty) (ts : List Ty) :
    a ≠ typeName c (t :: ts) := by
  rintro rfl
  refine h 'ᐸ' ?_ (by decide)
  rw [toList_typeName_cons]
  exact List.mem_append_right _ List.mem_cons_self

/-! ## Placeholders -/

/-- A text holds no mark of placeholders. -/
def Unmarked (s : String) : Prop := 'ǂ' ∉ s.toList

instance (s : String) : Decidable (Unmarked s) :=
  inferInstanceAs (Decidable ('ǂ' ∉ s.toList))

theorem mem_flatMap_nameChar {l : List Char} : 'ǂ' ∈ l.flatMap nameChar ↔ 'ǂ' ∈ l := by
  have hchar : ∀ c, 'ǂ' ∈ nameChar c ↔ c = 'ǂ' := by
    intro c
    unfold nameChar
    split <;> simp [eq_comm]
  simp [hchar]

theorem notMem_applicationChars {ts : List Ty} (hts : ∀ a ∈ ts, Unmarked a.render) :
    'ǂ' ∉ applicationChars ts := by
  have hchars : ∀ a ∈ ts, 'ǂ' ∉ chars a := fun a ha h => hts a ha (mem_flatMap_nameChar.1 h)
  have htail : ∀ ts : List Ty, (∀ a ∈ ts, 'ǂ' ∉ chars a) → 'ǂ' ∉ tailChars ts := by
    intro ts hts
    induction ts with
    | nil => decide
    | cons u us ih =>
      rw [List.forall_mem_cons] at hts
      rw [tailChars, List.mem_cons, List.mem_append]
      rintro (h | h | h)
      · exact absurd h (by decide)
      · exact hts.1 h
      · exact ih hts.2 h
  cases ts with
  | nil => exact List.not_mem_nil
  | cons u us =>
    rw [List.forall_mem_cons] at hchars
    rw [applicationChars, List.mem_cons, List.mem_append]
    rintro (h | h | h)
    · exact absurd h (by decide)
    · exact hchars.1 h
    · exact htail us hchars.2 h

/-- The mark of placeholders is in the name of a method at type arguments only if it is in the
method's name or in the text of an argument. -/
theorem notMem_methodName {m : String} {ts : List Ty} (hm : Unmarked m)
    (hts : ∀ a ∈ ts, Unmarked a.render) : Unmarked (methodName m ts) := by
  rw [methodName_eq]
  cases ts with
  | nil => exact hm
  | cons u us =>
    rw [Unmarked, toList_typeName_cons, List.mem_append, mem_flatMap_nameChar]
    rintro (h | h)
    · exact hm h
    · exact notMem_applicationChars hts h

/-- Before its first occurrence a mark separates texts in one way. -/
theorem append_mark_inj {l l' r r' : List Char} {c : Char} (hl : c ∉ l) (hl' : c ∉ l')
    (h : l ++ c :: r = l' ++ c :: r') : l = l' := by
  induction l generalizing l' with
  | nil =>
    cases l' with
    | nil => rfl
    | cons d l' => exact absurd ((List.cons.inj h).1 ▸ List.mem_cons_self) hl'
  | cons d l ih =>
    cases l' with
    | nil => exact absurd ((List.cons.inj h).1 ▸ List.mem_cons_self) hl
    | cons d' l' =>
      obtain ⟨rfl, htail⟩ := List.cons.inj h
      rw [ih (fun hm => hl (List.mem_cons_of_mem _ hm)) (fun hm => hl' (List.mem_cons_of_mem _ hm))
        htail]

section Placeholders

variable [Digest]

theorem toList_placeholderName (s : Signature) : (placeholderName s).toList
    = s.name.toList ++ 'ǂ' :: Nat.toDigits 16 (Digest.of (digested s)).toNat := by
  have hmark : "ǂ".toList = ['ǂ'] := rfl
  rw [placeholderName, String.toList_append, String.toList_append, hmark, String.toList_ofList,
    List.append_assoc, List.singleton_append]

/-- A clean name is no placeholder's. -/
theorem Clean.ne_placeholderName {a : String} (h : Clean a) (s : Signature) : a ≠ placeholderName s := by
  rintro rfl
  refine h 'ǂ' ?_ (by decide)
  rw [toList_placeholderName]
  exact List.mem_append_right _ List.mem_cons_self

/-- The name of a method at type arguments is no placeholder's. -/
theorem methodName_ne_placeholderName {m : String} {ts : List Ty} (hm : Unmarked m)
    (hts : ∀ a ∈ ts, Unmarked a.render) (s : Signature) :
    methodName m ts ≠ placeholderName s := by
  intro h
  refine notMem_methodName hm hts ?_
  rw [h, toList_placeholderName]
  exact List.mem_append_right _ List.mem_cons_self

/-- A placeholder's name tells the method's. -/
theorem name_eq_of_placeholderName {s s' : Signature} (hs : Unmarked s.name)
    (hs' : Unmarked s'.name) (h : placeholderName s = placeholderName s') : s.name = s'.name := by
  have hlist := congrArg String.toList h
  rw [toList_placeholderName, toList_placeholderName] at hlist
  exact String.toList_inj.1 (append_mark_inj hs hs' hlist)

/-- The name of a placeholder tells no more of a signature than its canonical form. -/
theorem placeholderName_eq_of_alphaEq {s o : Signature} (h : o.alphaEq s = true) :
    placeholderName o = placeholderName s := by
  obtain ⟨hname, -, -, htypes⟩ := Signature.alphaEq_iff.1 h
  have hfed : digested o = digested s := Prod.ext hname htypes
  rw [placeholderName, placeholderName, hname, hfed]

end Placeholders

/-! ## The interface that placeholders return -/

/-- The candidates for a fresh name. -/
def candidate (name : String) (i : Nat) : String := name ++ "_" ++ toString (i + 1)

theorem toList_candidate (name : String) (i : Nat) :
    (candidate name i).toList = name.toList ++ '_' :: Nat.toDigits 10 (i + 1) := by
  rw [candidate, String.toList_append, String.toList_append, List.append_assoc,
    Nat.toString_eq_repr, Nat.toList_repr]
  rfl

theorem candidate_injective (name : String) : Function.Injective (candidate name) := by
  intro i j h
  have hlist := congrArg String.toList h
  rw [toList_candidate, toList_candidate] at hlist
  have hdigits := (List.cons.inj (List.append_cancel_left hlist)).2
  have hsucc : i + 1 = j + 1 := by
    rw [← @Nat.ofDigitChars_ten_toDigits (i + 1), hdigits, Nat.ofDigitChars_ten_toDigits]
  omega

/-- A fresh name is the name itself or one of the candidates, and it is not taken. -/
theorem freshName_spec (name : String) (taken : List String) :
    (freshName name taken = name ∨ ∃ i, freshName name taken = candidate name i)
      ∧ freshName name taken ∉ taken := by
  by_cases hmem : name ∈ taken
  · have hdef : freshName name taken
        = (((List.range (taken.length + 1)).map (candidate name)).find?
            fun c => c ∉ taken).getD name := if_pos hmem
    rw [hdef]
    cases hfind : ((List.range (taken.length + 1)).map (candidate name)).find?
      fun c => c ∉ taken with
    | some c =>
      obtain ⟨i, -, hi⟩ := List.mem_map.1 (List.mem_of_find?_eq_some hfind)
      have hc := List.find?_some hfind
      rw [Option.getD_some]
      exact ⟨.inr ⟨i, hi.symm⟩, by simpa using hc⟩
    | none =>
      have hall : (List.range (taken.length + 1)).map (candidate name) ⊆ taken := by
        intro c hc
        simpa using List.find?_eq_none.1 hfind c hc
      have hnodup := List.Nodup.map (candidate_injective name)
        (List.nodup_range (n := taken.length + 1))
      have hle := (List.subperm_of_subset hnodup hall).length_le
      simp only [List.length_map, List.length_range] at hle
      omega
  · have hdef : freshName name taken = name := if_neg hmem
    rw [hdef]
    exact ⟨.inl rfl, hmem⟩

theorem clean_freshName {name : String} (h : Clean name) (taken : List String) :
    Clean (freshName name taken) := by
  rcases (freshName_spec name taken).1 with he | ⟨i, he⟩
  · rw [he]
    exact h
  · rw [he]
    intro c hc
    rw [toList_candidate, List.mem_append, List.mem_cons] at hc
    rcases hc with hc | rfl | hc
    · exact h c hc
    · decide
    · have hd := Nat.isDigit_of_mem_toDigits (by decide) (by decide) hc
      have hnot : marks.all (fun m => !m.isDigit) = true := by decide
      intro hm
      simpa [hd] using List.all_eq_true.1 hnot c hm

/-- No declared type is named as a fresh name is. -/
theorem typeName_ne_freshName {name c : String} {args : List Ty} {taken : List String}
    (hname : Clean name) (hmem : c ∈ taken) : typeName c args ≠ freshName name taken := by
  intro h
  cases args with
  | nil => exact (freshName_spec name taken).2 (h ▸ hmem)
  | cons t ts =>
    have hmark : 'ᐸ' ∈ (typeName c (t :: ts)).toList := by
      rw [toList_typeName_cons]
      exact List.mem_append_right _ List.mem_cons_self
    rw [h] at hmark
    exact clean_freshName hname taken _ hmark (by decide)

end FeatherGo.Ground
