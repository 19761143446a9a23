import Mathlib
import Bindery.View

/-!
# Views come back from their crossing

A view that is encoded and decoded shows the same items again. The null pointer is left to say that
there is no view: that of a view is never null, not even if it shows nothing.
-/
namespace Bindery

/-- Whether a pointer has an address other than that of the null pointer. -/
def Pointer.IsPresent {α : Type} : Pointer α → Prop
  | null => False
  | dangling address => address ≠ 0
  | items _ => True

namespace Scalar

theorem alignment_pos (s : Scalar) : 0 < s.alignment := by
  cases s with
  | int kind => cases kind <;> decide
  | _ => decide

end Scalar

namespace View
variable {α : Type} {v w : View α} {o o' : Option (View α)} {p : Pointer α} {alignment n : ℕ}

/-- A view of nothing, or of items that are all in storage. -/
def IsBacked (v : View α) : Prop :=
  v.length = 0 ∨ ∃ storage, v.pointer = .items storage ∧ v.length ≤ storage.length

/-- Views of the same items, and in the same place unless there are none. -/
structure Same (v w : View α) : Prop where
  length : v.length = w.length
  pointer : w.length ≠ 0 → v.pointer = w.pointer

theorem isBacked_ofList (l : List α) : (ofList l).IsBacked := .inr ⟨l, rfl, le_refl _⟩

theorem toList_ofList (l : List α) : (ofList l).toList = l := List.take_length

theorem toList_of_length_eq_zero (h : v.length = 0) : v.toList = [] := by
  unfold toList
  split
  · rw [h, List.take_zero]
  · rfl

namespace Same

theorem refl (v : View α) : v.Same v := ⟨rfl, fun _ => rfl⟩

theorem symm (h : v.Same w) : w.Same v :=
  ⟨h.length.symm, fun hv => (h.pointer (h.length ▸ hv)).symm⟩

theorem trans {x : View α} (h : v.Same w) (h' : w.Same x) : v.Same x :=
  ⟨h.length.trans h'.length, fun hx => (h.pointer (h'.length ▸ hx)).trans (h'.pointer hx)⟩

theorem toList_eq (h : v.Same w) : v.toList = w.toList := by
  by_cases hw : w.length = 0
  · rw [toList_of_length_eq_zero hw, toList_of_length_eq_zero (h.length.trans hw)]
  · rw [toList, toList, h.pointer hw, h.length]

end Same

theorem eq_null_of_isNull (h : isNull p = true) : p = .null := by
  cases p with
  | null => rfl
  | dangling | items => cases h

/-! ### Encoding -/

theorem encode_of_length_eq_zero (h : v.length = 0) :
    v.encode alignment = (.dangling alignment, 0) := if_pos h

theorem encode_of_length_ne_zero (h : v.length ≠ 0) :
    v.encode alignment = (v.pointer, v.length) := if_neg h

theorem length_encode : (v.encode alignment).2 = v.length := by
  by_cases h : v.length = 0
  · rw [encode_of_length_eq_zero h, h]
  · rw [encode_of_length_ne_zero h]

theorem isPresent_encode (hv : v.IsBacked) (h : 0 < alignment) :
    (v.encode alignment).1.IsPresent := by
  by_cases hlength : v.length = 0
  · rw [encode_of_length_eq_zero hlength]
    exact h.ne'
  · obtain hzero | ⟨storage, hp, -⟩ := hv
    · exact absurd hzero hlength
    · rw [encode_of_length_ne_zero hlength, hp]
      trivial

theorem isNull_eq_false (h : p.IsPresent) : isNull p = false := by
  cases p with
  | null => exact h.elim
  | dangling | items => rfl

theorem isNull_encode (hv : v.IsBacked) (h : 0 < alignment) :
    isNull (v.encode alignment).1 = false :=
  isNull_eq_false (isPresent_encode hv h)

/-! ### Decoding -/

theorem decode_of_isNull (h : isNull p = true) : decode p n = empty := if_pos (.inr h)

/-- What is not null is decoded as it is, but for its pointer if there is nothing to see. -/
theorem same_decode (h : isNull p = false) : (decode p n).Same ⟨p, n⟩ := by
  unfold decode
  by_cases hn : n = 0
  · rw [if_pos (.inl hn), hn]
    exact ⟨rfl, fun hzero => absurd rfl hzero⟩
  · rw [if_neg (by simp [hn, h])]
    exact .refl _

theorem decodeOptional_of_not_isNull (h : isNull p = false) :
    decodeOptional p n = some (decode p n) := by
  rw [decodeOptional, h, if_neg Bool.false_ne_true]

theorem decodeOptional_eq_none : decodeOptional p n = none ↔ p = .null := by
  cases p with
  | null => exact ⟨fun _ => rfl, fun _ => rfl⟩
  | dangling | items => exact ⟨nofun, nofun⟩

/-! ### Both ways -/

theorem same_decode_encode (hv : v.IsBacked) (h : 0 < alignment) :
    (decode (v.encode alignment).1 (v.encode alignment).2).Same v := by
  refine (same_decode (isNull_encode hv h)).trans ⟨length_encode, fun hlength => ?_⟩
  rw [encode_of_length_ne_zero hlength]

theorem rel_decodeOptional_encodeOptional (ho : ∀ v ∈ o, v.IsBacked) (h : 0 < alignment) :
    Option.Rel Same
      (decodeOptional (encodeOptional alignment o).1 (encodeOptional alignment o).2) o := by
  cases o with
  | none => exact .none
  | some v =>
    have hv : v.IsBacked := ho v rfl
    rw [encodeOptional, decodeOptional_of_not_isNull (isNull_encode hv h)]
    exact .some (same_decode_encode hv h)

/-- What is encoded alike was alike. -/
theorem rel_of_encodeOptional_eq (ho : ∀ v ∈ o, v.IsBacked) (ho' : ∀ v ∈ o', v.IsBacked)
    (h : 0 < alignment) (heq : encodeOptional alignment o = encodeOptional alignment o') :
    Option.Rel Same o o' := by
  have hleft := rel_decodeOptional_encodeOptional ho h
  have hright := rel_decodeOptional_encodeOptional ho' h
  rw [heq] at hleft
  generalize decodeOptional _ _ = back at hleft hright
  cases hleft with
  | none =>
    cases hright with
    | none => exact .none
  | some hv =>
    cases hright with
    | some hv' => exact .some (hv.symm.trans hv')

/-- How views of items of an alignment cross and come back: a view shows the same items after it,
and there is a view after it if and only if there was one before. -/
structure ComesBack (α : Type) (alignment : ℕ) : Prop where
  view : ∀ v : View α, v.IsBacked →
    let back := decode (v.encode alignment).1 (v.encode alignment).2
    back.Same v ∧ back.toList = v.toList
  pointer : ∀ v : View α, v.IsBacked → (v.encode alignment).1.IsPresent ∧
    (v.encode alignment).1 = if v.length = 0 then .dangling alignment else v.pointer
  optional : ∀ o : Option (View α), (∀ v ∈ o, v.IsBacked) → Option.Rel Same
    (decodeOptional (encodeOptional alignment o).1 (encodeOptional alignment o).2) o
  optionalPointer : ∀ o : Option (View α), (∀ v ∈ o, v.IsBacked) →
    encodeOptional alignment o = o.elim (.null, 0) (encode alignment) ∧
      ((encodeOptional alignment o).1 = .null ↔ o = none)
  injective : ∀ o o' : Option (View α), (∀ v ∈ o, v.IsBacked) → (∀ v ∈ o', v.IsBacked) →
    encodeOptional alignment o = encodeOptional alignment o' → Option.Rel Same o o'
  raw : ∀ (p : Pointer α) (n : ℕ),
    (p ≠ .null → n ≠ 0 → decode p n = ⟨p, n⟩) ∧ (p = .null ∨ n = 0 → decode p n = empty) ∧
      (∀ storage, p = .items storage → n ≤ storage.length →
        (decode p n).toList = storage.take n ∧ (decode p n).toList.length = n)
  rawOptional : ∀ (p : Pointer α) (n : ℕ),
    (decodeOptional p n = none ↔ p = .null) ∧
      (p ≠ .null → decodeOptional p n = some (decode p n))

theorem comesBack (α : Type) (h : 0 < alignment) : ComesBack α alignment where
  view v hv := ⟨same_decode_encode hv h, (same_decode_encode hv h).toList_eq⟩
  pointer v hv := by
    refine ⟨isPresent_encode hv h, ?_⟩
    split
    · rw [encode_of_length_eq_zero ‹_›]
    · rw [encode_of_length_ne_zero ‹_›]
  optional o ho := rel_decodeOptional_encodeOptional ho h
  optionalPointer o ho := by
    cases o with
    | none => exact ⟨rfl, iff_of_true rfl rfl⟩
    | some v =>
      refine ⟨rfl, iff_of_false (fun hnull => ?_) nofun⟩
      have hpresent := isPresent_encode (ho v rfl) h
      rw [encodeOptional] at hnull
      rw [hnull] at hpresent
      exact hpresent
  injective o o' ho ho' heq := rel_of_encodeOptional_eq ho ho' h heq
  raw p n := by
    refine ⟨fun hp hn => ?_, fun hempty => ?_, ?_⟩
    · rw [decode, if_neg]
      rintro (hzero | hnull)
      · exact hn hzero
      · exact hp (eq_null_of_isNull hnull)
    · obtain rfl | rfl := hempty
      · exact decode_of_isNull rfl
      · rw [decode, if_pos (.inl rfl)]
    · rintro storage rfl hlength
      have hsame : (decode (.items storage) n).Same ⟨.items storage, n⟩ := same_decode rfl
      rw [hsame.toList_eq]
      exact ⟨rfl, List.length_take_of_le hlength⟩
  rawOptional p n := by
    refine ⟨decodeOptional_eq_none, fun hp => decodeOptional_of_not_isNull ?_⟩
    rw [Bool.eq_false_iff]
    exact fun hnull => hp (eq_null_of_isNull hnull)

end View

theorem decodeOption_encodeOption {β : Type} [Inhabited β] (o : Option β) :
    decodeOption (encodeOption o).1 (encodeOption o).2 = o := by
  cases o <;> rfl

/-- Whatever the items are, the views of them come back, those of a list show the list, and so do
texts and optional values. The alignments of the scalars are all positive, as they have to be. -/
theorem views_come_back (α β : Type) [Inhabited β] {alignment : ℕ} (h : 0 < alignment) :
    View.ComesBack α alignment ∧ View.ComesBack UInt8 1 ∧ (∀ s : Scalar, 0 < s.alignment) ∧
      (∀ l : List α, (View.decode ((View.ofList l).encode alignment).1
        ((View.ofList l).encode alignment).2).toList = l) ∧
      ∀ o : Option β, decodeOption (encodeOption o).1 (encodeOption o).2 = o ∧
        (o = none → encodeOption o = (false, default)) := by
  have hviews : View.ComesBack α alignment := View.comesBack α h
  refine ⟨hviews, View.comesBack UInt8 Nat.one_pos, Scalar.alignment_pos, fun l => ?_, fun o => ?_⟩
  · rw [(hviews.view _ (View.isBacked_ofList l)).2, View.toList_ofList]
  · refine ⟨decodeOption_encodeOption o, ?_⟩
    rintro rfl
    rfl

/-- An empty view of words is told from none, though both cross with the length zero. -/
theorem views_of_words_come_back : 0 < (Scalar.int .u32).alignment ∧
    View.encodeOptional 4 (some (View.ofList ([] : List ℕ))) ≠ View.encodeOptional 4 none ∧
      (View.decode ((View.ofList [3, 5]).encode 4).1 ((View.ofList [3, 5]).encode 4).2).toList
        = [3, 5] := by
  obtain ⟨hviews, -, hpositive, hlists, -⟩ :=
    views_come_back ℕ ℕ (Scalar.alignment_pos (.int .u32))
  refine ⟨hpositive _, fun heq => ?_, hlists [3, 5]⟩
  have hrel := hviews.injective (some (View.ofList [])) none
    (fun v hv => Option.some.inj hv ▸ View.isBacked_ofList []) nofun heq
  cases hrel

end Bindery
