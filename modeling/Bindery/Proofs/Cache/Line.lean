import Bindery.Cache
import Bindery.Digest
import Bindery.Proofs.Text.Decimal

/-!
# The line of the cache

What is read back from the line of a cache is what was written, but for the path of the artifact:
it ends at its first line feed, and the blanks at its front are lost.
-/
namespace Bindery
open Text

namespace Text
variable {rest : List Char}

theorem ofDigits?_toString (isNegative : Bool) (n : Nat) (h : rest.head?.any isDigit = false) :
    Numeral.ofDigits? isNegative ((toString n).toList ++ rest) = some ⟨isNegative, n, rest⟩ := by
  rw [ofDigits?_append isNegative (fun _ => isDigit_of_mem_toString) (toString_ne_nil n) h,
    ofDigits_toString]

/-- Reading a number that is followed by no further digit gives it back. -/
theorem numeral?_toString (n : Int) (h : rest.head?.any isDigit = false) :
    ∃ m, numeral? ((toString n).toList ++ rest) = some m ∧ m.value = n ∧ m.rest = rest := by
  cases n with
  | ofNat n =>
    refine ⟨⟨false, n, rest⟩, ?_, rfl, rfl⟩
    obtain ⟨d, ds, hn⟩ := List.exists_cons_of_ne_nil (toString_ne_nil n)
    have hd : isDigit d = true :=
      isDigit_of_mem_toString (n := n) (by rw [hn]; exact List.mem_cons_self)
    have hdigits := ofDigits?_toString false n h
    rw [hn, List.cons_append] at hdigits
    rw [toList_toString_ofNat, hn, List.cons_append, numeral?_of_isDigit hd, hdigits]
  | negSucc n =>
    refine ⟨⟨true, n + 1, rest⟩, ?_, rfl, rfl⟩
    rw [toList_toString_negSucc, List.cons_append]
    exact ofDigits?_toString true (n + 1) h

end Text

namespace CacheEntry

/-- What a cache line tells of the path of an artifact. -/
def told (artifact : Path) : List Char :=
  (artifact.text.toList.takeWhile (· ≠ '\n')).dropWhile isSpace

/-- A path is told as it is if it has no line feed and no blank at its front. -/
theorem told_of_line {a : Path} (hline : '\n' ∉ a.text.toList)
    (hfront : a.text.toList.head?.any isSpace = false) : told a = a.text.toList := by
  have hall : ∀ c ∈ a.text.toList, decide (c ≠ '\n') = true := by
    intro c hc
    rw [decide_eq_true_eq]
    rintro rfl
    exact hline hc
  have hself := takeWhile_append_of_all hall (rfl : ([] : List Char).head?.any _ = false)
  rw [List.append_nil] at hself
  rw [told, hself]
  cases ha : a.text.toList with
  | nil => rfl
  | cons c cs =>
    rw [ha, List.head?_cons, Option.any_some] at hfront
    rw [List.dropWhile_cons_of_neg (by rw [hfront]; exact Bool.false_ne_true)]

/-- A key that stands in a cache line as one word. -/
def IsWord (key : String) : Prop := key ≠ "" ∧ ∀ c ∈ key.toList, isSpace c = false

theorem isSpace_of_mem_toString {n : Int} {c : Char} (h : c ∈ (toString n).toList) :
    isSpace c = false := by
  rcases mem_toString_int h with rfl | h
  · rfl
  · exact isSpace_of_isDigit h

theorem ne_newline_of_not_isSpace {c : Char} (h : isSpace c = false) : c ≠ '\n' := by
  rintro rfl
  cases h

theorem dropWhile_isSpace_cons {cs : List Char} (h : ∀ c ∈ cs, isSpace c = false) (hne : cs ≠ [])
    (rest : List Char) : (cs ++ rest).dropWhile isSpace = cs ++ rest := by
  cases cs with
  | nil => exact absurd rfl hne
  | cons c cs =>
    rw [List.cons_append, List.dropWhile_cons_of_neg]
    rw [h c List.mem_cons_self]
    exact Bool.false_ne_true

theorem line_render (e : CacheEntry) (hkey : IsWord e.key) :
    (e.render.toList.takeWhile (· ≠ '\n')).dropWhile isSpace =
      e.key.toList ++ ' ' :: ((toString e.time).toList ++
        ' ' :: e.artifact.text.toList.takeWhile (· ≠ '\n')) := by
  have hrender : e.render.toList = e.key.toList ++ ' ' :: ((toString e.time).toList ++
      ' ' :: (e.artifact.text.toList ++ ['\n'])) := by
    simp [render, String.toList_append]
  have hword : ∀ {cs : List Char}, (∀ c ∈ cs, isSpace c = false) →
      ∀ c ∈ cs, decide (c ≠ '\n') = true := fun h c hc =>
    decide_eq_true (ne_newline_of_not_isSpace (h c hc))
  have hkey' := hkey.1
  rw [hrender, List.takeWhile_append_of_pos (hword hkey.2), List.takeWhile_cons_of_pos (by decide),
    List.takeWhile_append_of_pos (hword fun _ => isSpace_of_mem_toString),
    List.takeWhile_cons_of_pos (by decide)]
  have hlast : (e.artifact.text.toList ++ ['\n']).takeWhile (· ≠ '\n') =
      e.artifact.text.toList.takeWhile (· ≠ '\n') := by
    rw [List.takeWhile_append]
    split
    · rename_i hall
      rw [List.takeWhile_cons_of_neg (by decide), List.append_nil]
      exact ((List.takeWhile_prefix _).eq_of_length hall).symm
    · rfl
  rw [hlast, dropWhile_isSpace_cons hkey.2 (by simpa using hkey')]

/-- What a written line tells: the key and the time as they are, and of the artifact what can be
told. -/
theorem parse?_render (e : CacheEntry) (hkey : IsWord e.key) :
    parse? e.render =
      if isTime e.time ∧ told e.artifact ≠ [] then
        some ⟨e.key, ⟨String.ofList (told e.artifact)⟩, e.time⟩
      else none := by
  have hspace : ∀ rest : List Char, (' ' :: rest).head?.any (!isSpace ·) = false := fun _ => rfl
  have hword : ∀ c ∈ e.key.toList, (!isSpace c) = true := fun c hc => by rw [hkey.2 c hc]; rfl
  obtain ⟨m, hm, hvalue, hrest⟩ :=
    @numeral?_toString (' ' :: e.artifact.text.toList.takeWhile (· ≠ '\n')) e.time rfl
  have htime : ∀ rest, (' ' :: ((toString e.time).toList ++ rest)).dropWhile isSpace =
      (toString e.time).toList ++ rest := fun rest => by
    rw [List.dropWhile_cons_of_pos (by decide)]
    exact dropWhile_isSpace_cons (fun _ => isSpace_of_mem_toString) (toString_int_ne_nil _) rest
  rw [parse?, line_render e hkey]
  dsimp only
  rw [takeWhile_append_of_all hword (hspace _), dropWhile_append_of_all hword (hspace _), htime, hm]
  dsimp only
  rw [hvalue, hrest, List.dropWhile_cons_of_pos (by decide), String.ofList_toList]
  rfl

end CacheEntry

namespace Digest

theorem isSpace_hexDigit {n : Nat} (h : n < 16) : isSpace (hexDigit n) = false := by
  revert n
  decide

theorem isSpace_of_mem_hexWord {w : UInt32} {c : Char} (h : c ∈ hexWord w) : isSpace c = false := by
  obtain ⟨i, _, rfl⟩ := List.mem_map.1 h
  exact isSpace_hexDigit (Nat.mod_lt _ (by decide))

/-- A digest is one word of hexadecimal digits. -/
theorem isWord_sha256 (text : String) : CacheEntry.IsWord (sha256 text) := by
  rw [sha256]
  constructor
  · intro h
    rw [← String.toList_inj, String.toList_ofList] at h
    simp [hexWord] at h
  · intro c hc
    rw [String.toList_ofList] at hc
    obtain ⟨w, _, hw⟩ := List.mem_flatMap.1 hc
    exact isSpace_of_mem_hexWord hw

end Digest
end Bindery
