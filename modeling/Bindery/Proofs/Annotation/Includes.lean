import Bindery.Annotation.Scan
import Bindery.Proofs.Annotation.Places

/-!
# The paths that includes name

A scan looks for the files that its includes name and for no others. So two scans of a text have the
same result if they find the same files by these names.
-/
namespace Bindery.Annotation

/-- Reading a host with every include taken at its word. -/
def naming (host : Path) : Source := ⟨host, fun path => some ⟨path⟩⟩

/-- The paths that the includes of a text name, as they are written. -/
def includes (host : Path) (text : List Char) : List String :=
  ((scan (naming host) ⟨.start, text⟩).1.filterMap (·.file)).map (·.text)

variable {host : Path} {f g : String → Option Path} {c c' : Cursor} {as : List Annotation}
  {read : Source → Except Failure (Option Annotation × Cursor)}

/-- What is read with some files is read alike with any others that are the same for the name that
the text has. -/
def Asks (host : Path) (read : Source → Except Failure (Option Annotation × Cursor)) : Prop :=
  ∀ f found c', read ⟨host, f⟩ = .ok (found, c') →
    ∃ named, read (naming host) = .ok (named, c') ∧
      ∀ g, (∀ path, named.bind (·.file) = some path → g path.text = f path.text) →
        read ⟨host, g⟩ = .ok (found, c')

theorem asks_of_eq (h : ∀ f g, read ⟨host, f⟩ = read ⟨host, g⟩) : Asks host read :=
  fun f found _ hread => ⟨found, (h _ f).trans hread, fun g _ => (h g f).trans hread⟩

/-- An include asks for the path between its quotes. -/
theorem asks_includedArgs (at_ : Position) (c : Cursor) :
    Asks host fun src => includedArgs src at_ c := by
  unfold includedArgs
  by_cases hpeek : c.peek ≠ some '"'
  · simp only [if_pos hpeek]
    exact asks_of_eq fun _ _ => rfl
  simp only [if_neg hpeek]
  intro f found c' h
  dsimp only at h ⊢
  cases hfile : f (String.ofList (c.quoted '"').1) with
  | none =>
    rw [hfile] at h
    cases h
  | some file =>
    rw [hfile] at h
    obtain ⟨⟨decls, c₁⟩, hdecls, h⟩ := Tokens.bind_eq_ok.1 h
    obtain ⟨_, hclosing, h⟩ := Tokens.bind_eq_ok.1 h
    cases h
    refine ⟨_, Tokens.bind_eq_ok.2 ⟨(decls, c₁), hdecls,
      Tokens.bind_eq_ok.2 ⟨c', hclosing, rfl⟩⟩, fun g hg => ?_⟩
    have hsame : g (String.ofList (c.quoted '"').1) = some file := (hg _ rfl).trans hfile
    rw [hsame]
    exact Tokens.bind_eq_ok.2 ⟨(decls, c₁), hdecls, Tokens.bind_eq_ok.2 ⟨c', hclosing, rfl⟩⟩

theorem asks_args (m : Macro) (at_ : Position) (c : Cursor) :
    Asks host fun src => args src m at_ c := by
  unfold args
  by_cases hpeek : c.skipBlanks.peek ≠ some '('
  · simp only [if_pos hpeek]
    exact asks_of_eq fun _ _ => rfl
  simp only [if_neg hpeek]
  cases m with
  | inline => exact asks_of_eq fun _ _ => rfl
  | included => exact asks_includedArgs at_ _

theorem asks_step (c : Cursor) : Asks host fun src => step src c := by
  unfold step
  dsimp only
  split_ifs
  · exact asks_of_eq fun _ _ => rfl
  · exact asks_of_eq fun _ _ => rfl
  · exact asks_of_eq fun _ _ => rfl
  · cases c.peek with
    | none => exact asks_of_eq fun _ _ => rfl
    | some ch =>
      dsimp only
      split_ifs
      · exact asks_of_eq fun _ _ => rfl
      · exact asks_of_eq fun _ _ => rfl
      · cases Macro.ofName? (String.ofList (c.rest.takeWhile Text.isNameChar)) with
        | none => exact asks_of_eq fun _ _ => rfl
        | some m => exact asks_args m c.pos _

/-- A scan that succeeds with some files succeeds alike with any others that are the same for the
names in the rest of the text. -/
theorem scan_congr (h : scan ⟨host, f⟩ c = (as, none))
    (hfiles : ∀ path, some path ∈ (scan (naming host) c).1.map (·.file) →
      g path.text = f path.text) : scan ⟨host, g⟩ c = (as, none) := by
  induction hlength : c.rest.length using Nat.strong_induction_on generalizing c as with
  | _ n ih =>
    by_cases hne : c.rest = []
    · rw [scan_of_nil hne] at h ⊢
      exact h
    cases hstep : step ⟨host, f⟩ c with
    | error e =>
      rw [scan_of_error hne hstep] at h
      cases h
    | ok r =>
      obtain ⟨found, c'⟩ := r
      obtain ⟨named, hnamed, hsame⟩ := asks_step c f found c' hstep
      rw [scan_of_ok hne hnamed, List.map_append] at hfiles
      have hfirst : step ⟨host, g⟩ c = .ok (found, c') := by
        refine hsame g fun path hpath => hfiles path (List.mem_append_left _ ?_)
        obtain ⟨a, rfl, ha⟩ := Option.bind_eq_some_iff.1 hpath
        rw [← ha]
        exact List.mem_singleton_self _
      rw [scan_of_ok hne hstep] at h
      rw [scan_of_ok hne hfirst]
      obtain ⟨has, hnone⟩ := Prod.mk.inj h
      have hrest := ih _ (hlength ▸ step_length hne hstep) (Prod.ext rfl hnone)
        (fun path hpath => hfiles path (List.mem_append_right _ hpath)) rfl
      rw [hrest]
      exact Prod.ext has rfl

/-- The result of a scan that succeeds depends on the files that its includes name. -/
theorem result_congr {text : List Char} (h : result ⟨host, f⟩ text = .ok as)
    (hfiles : ∀ path ∈ includes host text, g path = f path) :
    result ⟨host, g⟩ text = .ok as := by
  unfold result at h ⊢
  cases hscan : scan ⟨host, f⟩ ⟨.start, text⟩ with
  | mk found failed =>
    cases failed with
    | some e =>
      rw [hscan] at h
      cases h
    | none =>
      rw [hscan] at h
      have hsame : scan ⟨host, g⟩ ⟨.start, text⟩ = (found, none) := by
        refine scan_congr hscan fun path hpath => hfiles _ ?_
        obtain ⟨a, ha, hafile⟩ := List.mem_map.1 hpath
        exact List.mem_map.2 ⟨path, List.mem_filterMap.2 ⟨a, ha, hafile⟩, rfl⟩
      rw [hsame]
      exact h

example : includes ⟨"a.cpp"⟩ "ZIGBIND_INCLUDE(\"../x.zig\")".toList = ["../x.zig"] := by
  decide +kernel

end Bindery.Annotation
