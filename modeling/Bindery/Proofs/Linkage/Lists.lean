import Bindery.Linkage
import Bindery.Proofs.Path.Names
import Bindery.Proofs.Text.Decimal

/-!
# Reading link files

A link file sets names to quoted arguments. A backslash in an argument gives a quote or another
backslash, and its value is divided at semicolons. So what is read of a list are the pieces of its
items between their own semicolons; these are the items just if no item has a semicolon.
-/
namespace Bindery.Linkage
open Text BuildScript

/-! ### Arguments -/

/-- What a character behind a backslash stands for. A semicolon keeps its backslash, and a line that
ends in one goes on in the next line. -/
def escaped? (c : Char) : Option (List Char) :=
  if c = 't' then some ['\t']
  else if c = 'r' then some ['\r']
  else if c = 'n' then some ['\n']
  else if c = '\n' then some []
  else if c = ';' then some ['\\', ';']
  else if c.isAlphanum then none
  else some [c]

/-- The value of an argument behind its opening quote, and what follows the closing one. -/
def value? : List Char → Option (List Char × List Char)
  | [] => none
  | '"' :: cs => some ([], cs)
  | '\\' :: [] => none
  | '\\' :: c :: cs => do
    let piece ← escaped? c
    let (value, rest) ← value? cs
    return (piece ++ value, rest)
  | c :: cs => do
    let (value, rest) ← value? cs
    return (c :: value, rest)

/-- The value of a quoted argument, and what follows it. -/
def argument? : List Char → Option (List Char × List Char)
  | '"' :: cs => value? cs
  | _ => none

/-- The items of a value that is divided in some way. An empty value has none. -/
def elements (divide : List Char → List (List Char)) (value : List Char) : List String :=
  if value = [] then [] else (divide value).map String.ofList

/-- The list that a text is as an argument, where values are divided in some way. -/
def read? (divide : List Char → List (List Char)) (text : String) : Option (List String) := do
  let (value, rest) ← argument? text.toList
  if rest = [] then return elements divide value else none

/-- The pieces of an item between its semicolons. -/
def pieces (s : String) : List String := (splitOn ';' s.toList).map String.ofList

variable {cs ds rest : List Char} {items : List String}

theorem escape_append (cs ds : List Char) : escape (cs ++ ds) = escape cs ++ escape ds := by
  induction cs with
  | nil => rfl
  | cons c cs ih =>
    simp only [List.cons_append, escape, ih]
    split <;> rfl

/-- What is escaped is read back, whatever it is. -/
theorem value?_escape (cs rest : List Char) : value? (escape cs ++ '"' :: rest) = some (cs, rest) := by
  induction cs with
  | nil => rfl
  | cons c cs ih =>
    rw [escape]
    split
    · rename_i hescape
      rcases hescape with rfl | rfl
      · simp [value?, escaped?, ih]
      · simp [value?, escaped?, ih]
    · rename_i hplain
      obtain ⟨hslash, hquote⟩ := not_or.1 hplain
      simp [value?, hslash, ih]

/-- A list is escaped as a whole, since a semicolon is not escaped. -/
theorem escape_join (items : List String) :
    (join ";" (items.map fun s => String.ofList (escape s.toList))).toList =
      escape (join ";" items).toList := by
  induction items with
  | nil => rfl
  | cons s items ih =>
    cases items with
    | nil => simp
    | cons t items =>
      have hsemicolon : escape [';'] = [';'] := rfl
      simp only [List.map_cons, join_cons_cons, String.toList_append, escape_append] at ih ⊢
      rw [ih, String.toList_ofList]
      rfl

theorem argument?_quoteList (items : List String) (rest : List Char) :
    argument? ((quoteList items).toList ++ rest) = some ((join ";" items).toList, rest) := by
  have htext : (quoteList items).toList ++ rest =
      '"' :: (escape (join ";" items).toList ++ '"' :: rest) := by
    simp [quoteList, escape_join]
  rw [htext, argument?, value?_escape]

theorem read?_quoteList (divide : List Char → List (List Char)) (items : List String) :
    read? divide (quoteList items) = some (elements divide (join ";" items).toList) := by
  have hargument := argument?_quoteList items []
  rw [List.append_nil] at hargument
  rw [read?, hargument]
  rfl

theorem toList_join_cons (s t : String) (items : List String) :
    (join ";" (s :: t :: items)).toList = s.toList ++ ';' :: (join ";" (t :: items)).toList := by
  simp [join_cons_cons]

theorem splitOn_join (hne : items ≠ []) :
    splitOn ';' (join ";" items).toList = items.flatMap fun s => splitOn ';' s.toList := by
  induction items with
  | nil => exact absurd rfl hne
  | cons s items ih =>
    cases items with
    | nil => simp
    | cons t items =>
      rw [toList_join_cons, splitOn_append_cons, ih (List.cons_ne_nil _ _)]
      rfl

theorem join_ne_nil (hne : items ≠ []) (hitems : ∀ s ∈ items, s ≠ "") :
    (join ";" items).toList ≠ [] := by
  obtain ⟨s, items, rfl⟩ := List.exists_cons_of_ne_nil hne
  have hs : s.toList ≠ [] := fun h => hitems s List.mem_cons_self (String.toList_eq_nil_iff.1 h)
  cases items with
  | nil => exact hs
  | cons t items => simp [join_cons_cons, hs]

/-- What is read of a list are the pieces of its items. -/
theorem elements_join (hitems : ∀ s ∈ items, s ≠ "") :
    elements (splitOn ';') (join ";" items).toList = items.flatMap pieces := by
  cases items with
  | nil => rfl
  | cons s items =>
    rw [elements, if_neg (join_ne_nil (List.cons_ne_nil _ _) hitems),
      splitOn_join (List.cons_ne_nil _ _), List.map_flatMap]
    rfl

/-- An item is its own only piece just if it has no semicolon. -/
theorem pieces_of_not_mem {s : String} (h : ';' ∉ s.toList) : pieces s = [s] := by
  rw [pieces, splitOn_of_not_mem h, List.map_singleton, String.ofList_toList]

theorem not_mem_of_mem_pieces {s t : String} (h : t ∈ pieces s) : ';' ∉ t.toList := by
  obtain ⟨piece, hpiece, rfl⟩ := List.mem_map.1 h
  rw [String.toList_ofList]
  exact not_mem_of_mem_splitOn hpiece

theorem flatMap_pieces_eq_iff :
    items.flatMap pieces = items ↔ ∀ s ∈ items, ';' ∉ s.toList := by
  constructor
  · intro h s hs
    rw [← h] at hs
    obtain ⟨t, -, hpiece⟩ := List.mem_flatMap.1 hs
    exact not_mem_of_mem_pieces hpiece
  · intro h
    induction items with
    | nil => rfl
    | cons s items ih =>
      obtain ⟨hs, hitems⟩ := List.forall_mem_cons.1 h
      rw [List.flatMap_cons, pieces_of_not_mem hs, ih hitems]
      rfl

/-! ### Lists by the finer rule

A semicolon behind a backslash belongs to its item, and so does one within square brackets. -/

/-- How a character changes the depth of brackets. -/
def step (c : Char) : Int := if c = '[' then 1 else if c = ']' then -1 else 0

/-- The brackets that a text opens, less those that it closes. -/
def nesting : List Char → Int
  | [] => 0
  | c :: cs => step c + nesting cs

/-- A character at the front of the first item. -/
def push (c : Char) : List (List Char) → List (List Char)
  | [] => [[c]]
  | item :: items => (c :: item) :: items

/-- The items of a value from a depth of brackets on. -/
def divide : Int → List Char → List (List Char)
  | _, [] => [[]]
  | depth, '\\' :: ';' :: cs => push ';' (divide depth cs)
  | depth, c :: cs =>
    if c = ';' ∧ depth = 0 then [] :: divide depth cs else push c (divide (depth + step c) cs)

/-- An item that can be told from what follows it. -/
structure IsPlain (s : String) : Prop where
  undivided : ';' ∉ s.toList
  nesting : nesting s.toList = 0
  getLast? : s.toList.getLast? ≠ some '\\'

variable {depth : Int}

theorem divide_cons {c : Char} (hc : c ≠ ';') (hslash : c = '\\' → cs.head? ≠ some ';') :
    divide depth (c :: cs) = push c (divide (depth + step c) cs) := by
  rw [divide, if_neg fun h => hc h.1]
  rintro ds hback rfl
  exact hslash hback rfl

theorem divide_of_not_mem (h : ';' ∉ cs) : divide depth cs = [cs] := by
  induction cs generalizing depth with
  | nil => rfl
  | cons c cs ih =>
    obtain ⟨hc, hcs⟩ := List.ne_and_not_mem_of_not_mem_cons h
    rw [divide_cons (Ne.symm hc) fun _ hhead => hcs (List.mem_of_mem_head? hhead), ih hcs]
    rfl

theorem divide_append (h : ';' ∉ cs) (hdepth : depth + nesting cs = 0)
    (hlast : cs.getLast? ≠ some '\\') : divide depth (cs ++ ';' :: ds) = cs :: divide 0 ds := by
  induction cs generalizing depth with
  | nil =>
    obtain rfl : depth = 0 := by simpa [nesting] using hdepth
    simp [divide]
  | cons c cs ih =>
    obtain ⟨hc, hcs⟩ := List.ne_and_not_mem_of_not_mem_cons h
    have hslash : c = '\\' → (cs ++ ';' :: ds).head? ≠ some ';' := by
      intro hslash hhead
      cases cs with
      | nil => exact hlast (by rw [hslash]; rfl)
      | cons d cs => exact hcs (List.mem_of_mem_head? hhead)
    have hlast' : cs.getLast? ≠ some '\\' := by
      cases cs with
      | nil => nofun
      | cons d cs => rwa [List.getLast?_cons_cons] at hlast
    rw [nesting, ← add_assoc] at hdepth
    rw [List.cons_append, divide_cons (Ne.symm hc) hslash, ih hcs hdepth hlast']
    rfl

/-- Plain items are also told apart by the finer rule. -/
theorem divide_join (hne : items ≠ []) (hplain : ∀ s ∈ items, IsPlain s) :
    divide 0 (join ";" items).toList = items.map String.toList := by
  induction items with
  | nil => exact absurd rfl hne
  | cons s items ih =>
    obtain ⟨hs, hitems⟩ := List.forall_mem_cons.1 hplain
    cases items with
    | nil => exact divide_of_not_mem hs.undivided
    | cons t items =>
      rw [toList_join_cons, divide_append hs.undivided (by rw [hs.nesting]; rfl) hs.getLast?,
        ih (List.cons_ne_nil _ _) hitems]
      rfl

theorem elements_divide_join (hitems : ∀ s ∈ items, s ≠ "") (hplain : ∀ s ∈ items, IsPlain s) :
    elements (divide 0) (join ";" items).toList = items := by
  cases items with
  | nil => rfl
  | cons s items =>
    have hne := List.cons_ne_nil s items
    rw [elements, if_neg (join_ne_nil hne hitems), divide_join hne hplain, List.map_map]
    exact (List.map_congr_left fun s _ => String.ofList_toList).trans (List.map_id _)

/-! ### Link files -/

/-- The settings of a link file, each with the list that its argument is. The number bounds how many
lines and settings are read. -/
def settings? : Nat → List Char → Option (List (String × List String))
  | _, [] => some []
  | 0, _ => none
  | n + 1, '#' :: cs => settings? n (cs.dropWhile (· ≠ '\n')).tail
  | n + 1, cs => do
    let cs ← cs.dropPrefix? "set(".toList
    let name := cs.takeWhile (· ≠ ' ')
    let (value, rest) ← argument? (cs.dropWhile (· ≠ ' ')).tail
    let rest ← rest.dropPrefix? ")\n".toList
    let settings ← settings? n rest
    return (String.ofList name, elements (splitOn ';') value) :: settings

def linkFile? (text : String) : Option (List (String × List String)) :=
  settings? text.length text.toList

/-- The lists of a link file with the names that they are set to. -/
def Lists.named (l : Lists) : List (String × List String) :=
  [("ZIGBIND_LINK_DIRECTORIES", l.directories), ("ZIGBIND_LINK_LIBRARIES", l.libraries),
    ("ZIGBIND_LINK_OPTIONS", l.options), ("ZIGBIND_GENERATED_SOURCES", l.sources)]

/-- The items of all lists of a link file. -/
def Lists.entries (l : Lists) : List String := l.named.flatMap (·.2)

/-- A setting is read back, with what is read of the lines below it. -/
theorem settings?_setting {name : String} (hname : ' ' ∉ name.toList) (items : List String)
    (n : Nat) (rest : List Char) : settings? (n + 1) ((setting name items).toList ++ rest) =
      (settings? n rest).map ((name, elements (splitOn ';') (join ";" items).toList) :: ·) := by
  have htext : (setting name items).toList ++ rest = "set(".toList ++
      (name.toList ++ ' ' :: ((quoteList items).toList ++ (")\n".toList ++ rest))) := by
    simp [setting]
  have hall : ∀ c ∈ name.toList, decide (c ≠ ' ') = true := by
    intro c hc
    rw [decide_eq_true_eq]
    rintro rfl
    exact hname hc
  have hspace : (' ' :: ((quoteList items).toList ++ (")\n".toList ++ rest))).head?.any
      (fun c => decide (c ≠ ' ')) = false := rfl
  rw [htext, settings?]
  · simp only [dropPrefix?_append, Option.bind_eq_bind, Option.bind_some,
      takeWhile_append_of_all hall hspace, dropWhile_append_of_all hall hspace, List.tail_cons,
      argument?_quoteList, String.ofList_toList]
    cases settings? n rest <;> rfl
  · nofun
  · rintro ds ⟨⟩

theorem settings?_nil (n : Nat) : settings? n [] = some [] := by
  cases n <;> rfl

/-- The first line of a link file is passed over. -/
theorem settings?_title (n : Nat) (rest : List Char) :
    settings? (n + 1) ("# Generated by zbgen. Do not edit.\n".toList ++ rest) = settings? n rest := by
  have htext : "# Generated by zbgen. Do not edit.\n".toList ++ rest =
      '#' :: (" Generated by zbgen. Do not edit.".toList ++ '\n' :: rest) := by simp
  rw [htext, settings?, dropWhile_append_of_all (by simp) rfl, List.tail_cons]

/-- A link file is read as four settings, whatever the lists are. -/
theorem linkFile?_render (l : Lists) : linkFile? (render l) =
    some (l.named.map fun p => (p.1, elements (splitOn ';') (join ";" p.2).toList)) := by
  have happend : ∀ r s t u v : String, (r ++ s ++ t ++ u ++ v).toList =
      r.toList ++ (s.toList ++ (t.toList ++ (u.toList ++ (v.toList ++ [])))) := by
    intro r s t u v
    simp only [String.toList_append, List.append_assoc, List.append_nil]
  have htext : (render l).toList = "# Generated by zbgen. Do not edit.\n".toList ++
      ((setting "ZIGBIND_LINK_DIRECTORIES" l.directories).toList ++
        ((setting "ZIGBIND_LINK_LIBRARIES" l.libraries).toList ++
          ((setting "ZIGBIND_LINK_OPTIONS" l.options).toList ++
            ((setting "ZIGBIND_GENERATED_SOURCES" l.sources).toList ++ [])))) := happend _ _ _ _ _
  obtain ⟨n, hn⟩ : ∃ n, (render l).length = n + 5 := by
    refine Nat.exists_eq_add_of_le' ?_
    rw [← String.length_toList, htext, List.length_append]
    simp
    omega
  rw [linkFile?, hn, htext, settings?_title, settings?_setting (by decide),
    settings?_setting (by decide), settings?_setting (by decide), settings?_setting (by decide),
    settings?_nil]
  rfl

theorem mem_entries {l : Lists} {s : String} : s ∈ l.entries ↔ ∃ p ∈ l.named, s ∈ p.2 :=
  List.mem_flatMap

/-- A link file says what was meant just if no item of it has a semicolon. -/
theorem linkFile?_render_iff {l : Lists} (hitems : ∀ s ∈ l.entries, s ≠ "") :
    linkFile? (render l) = some l.named ↔ ∀ s ∈ l.entries, ';' ∉ s.toList := by
  have hread : ∀ p ∈ l.named, (p.1, elements (splitOn ';') (join ";" p.2).toList) =
      (p.1, p.2.flatMap pieces) := by
    intro p hp
    rw [elements_join fun s hs => hitems s (mem_entries.2 ⟨p, hp, hs⟩)]
  have hsame : ∀ p : String × List String, (p.1, p.2.flatMap pieces) = p ↔ p.2.flatMap pieces = p.2 :=
    fun p => ⟨congrArg Prod.snd, fun h => Prod.ext rfl h⟩
  rw [linkFile?_render, List.map_congr_left hread, Option.some.injEq]
  conv_lhs => rhs; rw [← List.map_id l.named]
  rw [List.map_inj_left]
  constructor
  · intro h s hs
    obtain ⟨p, hp, hs⟩ := mem_entries.1 hs
    exact flatMap_pieces_eq_iff.1 ((hsame p).1 (h p hp)) s hs
  · intro h p hp
    exact (hsame p).2 (flatMap_pieces_eq_iff.2 fun s hs => h s (mem_entries.2 ⟨p, hp, hs⟩))

/-- Of every list of items that are not empty one reads the pieces of the items between semicolons,
and so the list itself just if no item has one. Plain items also come back by the finer rule. And
the link file as a whole says what was meant just if no item of its lists has a semicolon. -/
theorem lists_come_back (items : List String) (hitems : ∀ s ∈ items, s ≠ "") :
    read? (splitOn ';') (quoteList items) = some (items.flatMap pieces) ∧
      (read? (splitOn ';') (quoteList items) = some items ↔ ∀ s ∈ items, ';' ∉ s.toList) ∧
      ((∀ s ∈ items, IsPlain s) → read? (divide 0) (quoteList items) = some items) ∧
      ∀ l : Lists, (∀ s ∈ l.entries, s ≠ "") →
        (linkFile? (render l) = some l.named ↔ ∀ s ∈ l.entries, ';' ∉ s.toList) := by
  have hread : read? (splitOn ';') (quoteList items) = some (items.flatMap pieces) := by
    rw [read?_quoteList, elements_join hitems]
  refine ⟨hread, ?_, fun hplain => ?_, fun l hentries => linkFile?_render_iff hentries⟩
  · rw [hread, Option.some.injEq]
    exact flatMap_pieces_eq_iff
  · rw [read?_quoteList, elements_divide_join hitems hplain]

/-- Quotes, backslashes, spaces and brackets in paths come back as they are. -/
theorem lists_come_back_quotes :
    read? (splitOn ';') (quoteList ["/a b/\"q\".cpp", "C:\\x[1].cpp"]) =
        some ["/a b/\"q\".cpp", "C:\\x[1].cpp"] ∧
      read? (divide 0) (quoteList ["/a b/\"q\".cpp", "C:\\x[1].cpp"]) =
        some ["/a b/\"q\".cpp", "C:\\x[1].cpp"] ∧
      linkFile? (render { sources := ["/a b/\"q\".cpp"] }) =
        some (Lists.named { sources := ["/a b/\"q\".cpp"] }) := by
  have hplain : ∀ s ∈ ["/a b/\"q\".cpp", "C:\\x[1].cpp"], IsPlain s := by
    intro s hs
    rcases List.mem_pair.1 hs with rfl | rfl
    · exact ⟨by decide, rfl, by decide⟩
    · exact ⟨by decide, rfl, by decide⟩
  obtain ⟨-, hiff, hfine, hfile⟩ :=
    lists_come_back ["/a b/\"q\".cpp", "C:\\x[1].cpp"] (by decide)
  exact ⟨hiff.2 fun s hs => (hplain s hs).undivided, hfine hplain,
    (hfile { sources := ["/a b/\"q\".cpp"] } (by decide)).2 (by decide)⟩

/-- A path with a semicolon in it is read as two items. -/
theorem semicolon_divides : ¬ ∀ items : List String, (∀ s ∈ items, s ≠ "") →
    read? (splitOn ';') (quoteList items) = some items := by
  intro h
  have hdivided : read? (splitOn ';') (quoteList ["/a;b.cpp"]) = some ["/a", "b.cpp"] := by
    decide +kernel
  have hsame := hdivided.symm.trans (h ["/a;b.cpp"] (by decide))
  exact absurd hsame (by decide)

end Bindery.Linkage
