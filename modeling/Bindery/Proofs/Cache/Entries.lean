import Bindery.Proofs.Build.Outcome
import Bindery.Proofs.Cache.Line
import Bindery.Proofs.World.Repeat

/-!
# Entries of the cache

A cache line can hold a key that is one word, a time of 64 bits, and a path without a line feed that
does not begin with a blank. Such an entry is loaded as it was stored. Whatever else the file of the
cache holds, loading it ends with such an entry or with none.
-/
namespace Bindery
open Act Text

/-- What is left behind a numeral is the end of the text. -/
theorem Text.suffix_of_numeral? {cs : List Char} {n : Numeral} (h : numeral? cs = some n) :
    n.rest <:+ cs := by
  have hdigits : ∀ {isNegative : Bool} {ds : List Char},
      Numeral.ofDigits? isNegative ds = some n → n.rest <:+ ds := by
    intro isNegative ds h
    rw [Numeral.ofDigits?] at h
    split_ifs at h
    cases h
    exact List.dropWhile_suffix isDigit
  unfold numeral? at h
  split at h
  · exact (hdigits h).trans (List.suffix_cons _ _)
  · exact (hdigits h).trans (List.suffix_cons _ _)
  · exact hdigits h

namespace CacheEntry
variable {e : CacheEntry} {content : String}

/-- An entry that a line can hold. -/
structure IsLine (e : CacheEntry) : Prop where
  isWord : IsWord e.key
  nonempty : e.artifact.text ≠ ""
  front : e.artifact.text.toList.head?.any isSpace = false
  line : '\n' ∉ e.artifact.text.toList
  isTime : isTime e.time = true

/-- What is written in a line is read from it. -/
theorem parse?_render_of_isLine (h : e.IsLine) : parse? e.render = some e := by
  have htold := told_of_line h.line h.front
  have hne : told e.artifact ≠ [] := by
    rw [htold]
    exact fun hnil => h.nonempty (String.toList_eq_nil_iff.1 hnil)
  rw [parse?_render e h.isWord, if_pos ⟨h.isTime, hne⟩, htold, String.ofList_toList]

theorem head?_dropWhile_isSpace (cs : List Char) :
    (cs.dropWhile isSpace).head?.any isSpace = false := by
  cases hhead : (cs.dropWhile isSpace).head? with
  | none => rfl
  | some c =>
    have hc := List.head?_dropWhile_not isSpace cs
    rw [hhead] at hc
    simpa using hc

/-- What is read from a text is an entry that a line can hold. -/
theorem isLine_of_parse? (h : parse? content = some e) : e.IsLine := by
  rw [parse?] at h
  dsimp only at h
  -- The first line without the blanks at its front.
  generalize hline : (content.toList.takeWhile (· ≠ '\n')).dropWhile isSpace = line at h
  have hfront : line.head?.any isSpace = false := hline ▸ head?_dropWhile_isSpace _
  have hfeed : '\n' ∉ line := by
    intro hmem
    rw [← hline] at hmem
    simpa using List.mem_takeWhile_imp ((List.dropWhile_suffix _).subset hmem)
  cases htime : numeral? ((line.dropWhile (!isSpace ·)).dropWhile isSpace) with
  | none =>
    rw [htime] at h
    cases h
  | some time =>
    rw [htime] at h
    dsimp only at h
    split_ifs at h with hcheck
    cases h
    have hrest : time.rest.dropWhile isSpace <:+ line :=
      (List.dropWhile_suffix _).trans ((suffix_of_numeral? htime).trans
        ((List.dropWhile_suffix _).trans (List.dropWhile_suffix _)))
    refine ⟨⟨?_, fun c hc => ?_⟩, ?_, ?_, ?_, hcheck.1⟩
    · -- A line without a word at its front is empty, and has no numeral.
      intro hempty
      have hkey : line.takeWhile (!isSpace ·) = [] := by
        simpa using congrArg String.toList hempty
      cases line with
      | nil => cases htime
      | cons c cs =>
        rw [List.head?_cons, Option.any_some] at hfront
        rw [List.takeWhile_cons_of_pos (by rw [hfront]; rfl)] at hkey
        cases hkey
    · rw [String.toList_ofList] at hc
      simpa using List.mem_takeWhile_imp hc
    · intro hempty
      exact hcheck.2 (by simpa using congrArg String.toList hempty)
    · rw [String.toList_ofList]
      exact head?_dropWhile_isSpace _
    · rw [String.toList_ofList]
      exact fun hmem => hfeed (hrest.subset hmem)

end CacheEntry

namespace Cache
variable {w v : World} {out : Path} {e : CacheEntry}

/-- The entry that is loaded, if any. -/
def loaded (w : World) (out : Path) : Option CacheEntry :=
  (w.read? (file out)).bind CacheEntry.parse?

/-- The file of the cache can be written: it lies in a directory and is none itself. -/
def IsWritable (w : World) (out : Path) : Prop :=
  w.locate (file out) = some ((file out).place w.cwd) ∧
    w.tree.isDirectory ((file out).place w.cwd) = false ∧
    w.tree.isDirectory (List.dropLast ((file out).place w.cwd)) = true

/-- An entry that can be stored and is then loaded as it is. -/
def ComesBack (w : World) (out : Path) (e : CacheEntry) : Prop :=
  ∃ v log, (store out e).runOn w = (.ok ⟨⟩, v) ∧
    (load out).runOn v = (.ok (some e), { v with log })

theorem store_of_isWritable (h : IsWritable w out) (e : CacheEntry) :
    (store out e).runOn w = (.ok ⟨⟩, stored w out e) :=
  put_ok h.1 h.2.1 h.2.2 e.render (.file (.cannotWrite (file out)))

theorem store_of_not_isWritable (h : ¬ IsWritable w out) (e : CacheEntry) :
    (store out e).runOn w = (.error (.file (.cannotWrite (file out))), w) := by
  rcases put_cases w (file out) e.render (.file (.cannotWrite (file out))) with
    hput | ⟨hloc, hdir, hparent, -⟩
  · exact hput
  · exact absurd ⟨hloc, hdir, hparent⟩ h

/-- What is stored is what is loaded next. -/
theorem loaded_stored (h : IsWritable w out) (e : CacheEntry) :
    loaded (stored w out e) out = CacheEntry.parse? e.render := by
  rw [loaded, World.read?, stored, World.get?_put h.1 h.2.1]
  rfl

theorem comesBack_of_isLine (h : IsWritable w out) (he : e.IsLine) : ComesBack w out e := by
  obtain ⟨log, hload⟩ := load_runOn (stored w out e) out
  refine ⟨_, log, store_of_isWritable h e, hload.trans ?_⟩
  have hloaded := loaded_stored h e
  rw [CacheEntry.parse?_render_of_isLine he, loaded] at hloaded
  rw [hloaded]

/-- A cache that tells an entry is a file, which can be written anew. -/
theorem isWritable_of_loaded (hw : w.tree.WellFormed) (h : loaded w out = some e) :
    IsWritable w out := by
  obtain ⟨content, hread, hparse⟩ := Option.bind_eq_some_iff.1 h
  obtain ⟨hloc, hplace | ⟨-, rfl⟩⟩ := World.get?_of_read? hread
  · refine ⟨hloc, ?_, hw.isDirectory_dropLast hplace⟩
    rw [FileTree.isDirectory, hplace]
    rfl
  · cases hparse

theorem found_eq_some_iff {key : String} :
    found w out key = some e ↔
      loaded w out = some e ∧ e.key = key ∧ w.exists? e.artifact = true := by
  rw [found, Option.filter_eq_some_iff, Bool.and_eq_true, decide_eq_true_eq]
  rfl

/-- An entry that a line can hold is loaded as it was stored, wherever the cache can be written at
all. From any file there is loaded such an entry, which could be stored again with the same effect,
or none. And a look-up finds the entry that is loaded just if it is one for the key whose artifact
exists. -/
theorem entries_come_back (hw : w.tree.WellFormed) (out : Path) :
    (∀ e : CacheEntry, IsWritable w out → e.IsLine → ComesBack w out e) ∧
      (∀ e : CacheEntry, ¬ IsWritable w out →
        (store out e).runOn w = (.error (.file (.cannotWrite (file out))), w)) ∧
      ∃ r log, (load out).runOn w = (.ok r, { w with log }) ∧
        (∀ e, r = some e → e.IsLine ∧ ComesBack w out e) ∧
        ∀ key, ∃ hit log, (lookup out key).runOn w = (.ok hit, { w with log }) ∧
          ∀ e, hit = some e ↔ r = some e ∧ e.key = key ∧ w.exists? e.artifact = true := by
  refine ⟨fun e hwrite he => comesBack_of_isLine hwrite he,
    fun e hwrite => store_of_not_isWritable hwrite e, ?_⟩
  obtain ⟨log, hload⟩ := load_runOn w out
  refine ⟨_, log, hload, fun e he => ?_, fun key => ?_⟩
  · obtain ⟨content, -, hparse⟩ := Option.bind_eq_some_iff.1 he
    have hline := CacheEntry.isLine_of_parse? hparse
    exact ⟨hline, comesBack_of_isLine (isWritable_of_loaded hw he) hline⟩
  · obtain ⟨log', hlookup⟩ := lookup_runOn w out key
    exact ⟨_, log', hlookup, fun e => found_eq_some_iff⟩

/-- A world with a library whose path has a blank in it, and a cache that tells of it. -/
def exampleStored : World :=
  { tree := ⟨[(["o"], .directory), (["o", "my lib.a"], .file "!<arch>"),
      (["o", ".zigbind_cache"], .file " k\t+07  /o/my lib.a\n\n")]⟩ }

theorem wellFormed_exampleStored : exampleStored.tree.WellFormed where
  isNamed := by
    unfold FileTree.IsNamed Place.IsProper
    decide
  nodup := by decide
  parents := by decide

/-- A line that is spaced otherwise than it would be written tells of an entry all the same, which
is found by its key and comes back when it is stored anew. -/
theorem entries_come_back_blank :
    exampleStored.tree.WellFormed ∧ ∃ log log',
      (load ⟨"/o"⟩).runOn exampleStored =
        (.ok (some ⟨"k", ⟨"/o/my lib.a"⟩, 7⟩), { exampleStored with log }) ∧
      ComesBack exampleStored ⟨"/o"⟩ ⟨"k", ⟨"/o/my lib.a"⟩, 7⟩ ∧
      (lookup ⟨"/o"⟩ "k").runOn exampleStored =
        (.ok (some ⟨"k", ⟨"/o/my lib.a"⟩, 7⟩), { exampleStored with log := log' }) := by
  obtain ⟨-, -, r, log, hload, hall, hlookup⟩ :=
    entries_come_back wellFormed_exampleStored ⟨"/o"⟩
  have hr : loaded exampleStored ⟨"/o"⟩ = some ⟨"k", ⟨"/o/my lib.a"⟩, 7⟩ := by decide +kernel
  obtain ⟨log', hloaded⟩ := load_runOn exampleStored ⟨"/o"⟩
  obtain rfl : r = loaded exampleStored ⟨"/o"⟩ :=
    Except.ok.inj (congrArg Prod.fst (hload.symm.trans hloaded))
  obtain ⟨hit, log'', hfound, hiff⟩ := hlookup "k"
  have hhit := (hiff _).2 ⟨hr, rfl, by decide⟩
  rw [hr] at hload
  rw [hhit] at hfound
  exact ⟨wellFormed_exampleStored, log, log'', hload, (hall _ hr).2, hfound⟩

end Cache
end Bindery
