import Bindery.Proofs.Syntax.Reads

/-!
# What types are read

A type that is read can be written again, and its leaves are generic parameters exactly if their
names are in scope.
-/
namespace Bindery
open Lexeme

namespace Name

theorem parts_of_not_mem {p : List Char} (h : ':' ∉ p) : parts p = [p] := by
  induction p with
  | nil => rfl
  | cons c cs ih =>
    have hc : c ≠ ':' := fun hc => h (hc ▸ List.mem_cons_self)
    have htail := ih fun hm => h (List.mem_cons_of_mem _ hm)
    unfold parts
    split
    all_goals simp_all

theorem parts_append {p : List Char} (h : ':' ∉ p) (cs : List Char) :
    parts (p ++ ':' :: ':' :: cs) = p :: parts cs := by
  induction p with
  | nil => rfl
  | cons c p ih =>
    have hc : c ≠ ':' := fun hc => h (hc ▸ List.mem_cons_self)
    have htail := ih fun hm => h (List.mem_cons_of_mem _ hm)
    rw [List.cons_append, parts, htail]
    intro _ heq
    exact absurd heq hc

theorem parts_flatMap {p : List Char} {ps : List (List Char)} (hp : ':' ∉ p)
    (hps : ∀ q ∈ ps, ':' ∉ q) : parts (p ++ ps.flatMap fun q => ':' :: ':' :: q) = p :: ps := by
  induction ps generalizing p with
  | nil => rw [List.flatMap_nil, List.append_nil, parts_of_not_mem hp]
  | cons q ps ih =>
    rw [List.flatMap_cons, List.cons_append, List.cons_append, parts_append hp,
      ih (hps q List.mem_cons_self) fun r hr => hps r (List.mem_cons_of_mem _ hr)]

theorem not_mem_of_isIdent {part : List Char} (h : IsIdent (String.ofList part)) : ':' ∉ part := by
  intro hm
  rw [← String.toList_ofList (l := part)] at hm
  exact absurd (isNameChar_of_mem h.1 hm) (by decide)

/-- A path with one more part is a path. -/
theorem IsPath.append {name part : String} (h : IsPath name) (hpart : IsIdent part) :
    IsPath (name ++ "::" ++ part) := by
  obtain ⟨p, ps, hp, hjoin⟩ := parts_join name.toList
  rw [IsPath, hp] at h
  have hcolon : ∀ q ∈ p :: ps, ':' ∉ q := fun q hq => not_mem_of_isIdent (h q hq)
  have hname : (name ++ "::" ++ part).toList =
      p ++ (ps ++ [part.toList]).flatMap fun q => ':' :: ':' :: q := by
    rw [String.toList_append, String.toList_append, ← hjoin, List.flatMap_append,
      List.flatMap_singleton]
    simp
  have hlast : IsIdent (String.ofList part.toList) := by rwa [String.ofList_toList]
  have hall : ∀ q ∈ ps ++ [part.toList], IsIdent (String.ofList q) := by
    intro q hq
    rcases List.mem_append.1 hq with hq | hq
    · exact h q (List.mem_cons_of_mem _ hq)
    · rw [List.mem_singleton.1 hq]
      exact hlast
  rw [IsPath, hname, parts_flatMap (hcolon p List.mem_cons_self)
    fun q hq => not_mem_of_isIdent (hall q hq)]
  intro q hq
  rcases List.mem_cons.1 hq with rfl | hq
  · exact h q List.mem_cons_self
  · exact hall q hq

end Name

/-- A type that can be written, with the names in scope as its generic parameters. -/
def Ty.Fits (scope : List String) (t : Ty) : Prop := t.IsWritable ∧ t.IsScoped scope

theorem Enclosure.fits_around {scope : List String} {t : Ty} (e : Enclosure) (h : t.Fits scope) :
    (e.around t).Fits scope := by
  cases e <;> exact h

namespace Tokens
variable {x : Passage} {ts rest : Tokens} {scope : List String} {outer : List Enclosure} {t : Ty}

theorem reads_pathFrom {start : String} (hstart : Name.IsPath start) (h : ts.AreOf x) :
    Reads x Name.IsPath (ts.pathFrom start) := by
  fun_induction pathFrom start ts with
  | case1 start _ part _ rest ih => exact ih (hstart.append (h.2.1.ident _ rfl)) h.2.2
  | case2 => exact reads_unexpected h.2
  | case3 => exact reads_error h
  | case4 => exact reads_ok hstart h

theorem reads_path (h : ts.AreOf x) : Reads x Name.IsPath ts.path :=
  (reads_ident h).bind fun _ _ hname hrest => reads_pathFrom (Name.isPath_of_isIdent hname) hrest

theorem checks_numberValue {digits : String} {p : Position} (hp : x.Has p) :
    Checks x (fun _ => True) (numberValue digits p) := by
  unfold numberValue
  split
  · exact checks_ok trivial
  · exact checks_error hp

theorem checks_arrayLength {digits : String} {p : Position} (hp : x.Has p) :
    Checks x (fun n => 0 < n ∧ n < 4294967296) (arrayLength digits p) := by
  refine (checks_numberValue hp).bind fun n _ => ?_
  split
  · exact checks_ok (by omega)
  · exact checks_error hp

theorem reads_suffixes (ht : t.Fits scope) (h : ts.AreOf x) :
    Reads x (Ty.Fits scope) (suffixes t ts) := by
  fun_induction suffixes t ts with
  | case1 t _ digits p ts fault hn =>
    exact (checks_arrayLength (h.2.1.has)).of_error hn
  | case2 t _ digits p n hn _ rest ih =>
    have hlength := (checks_arrayLength (x := x) h.2.1.has).of_ok hn
    exact ih ⟨⟨ht.1, hlength⟩, ht.2⟩ h.2.2.2
  | case3 t _ digits p ts n hn hts => exact reads_unexpected h.2.2
  | case4 => exact reads_unexpected h.2
  | case5 => exact reads_error h
  | case6 => exact reads_ok ht h

theorem reads_close (ht : t.Fits scope) (h : ts.AreOf x) :
    Reads x (Ty.Fits scope) (close outer t ts) := by
  induction outer generalizing t ts with
  | nil => exact reads_suffixes ht h
  | cons e outer ih =>
    refine (reads_suffixes ht h).bind fun u rest hu hrest => ?_
    exact (skips_punct hrest .greater).bind fun rest hrest => ih (e.fits_around hu) hrest

theorem reads_noType {P : Option Ty → Prop} (hnone : P none) (h : ts.AreOf x) :
    Reads x P (noType outer ts) := by
  refine (checks_head h).reads fun t ht => ?_
  cases outer with
  | nil => exact reads_ok hnone h
  | cons => exact reads_error ht.has

theorem fits_named {name : String} (h : Name.IsPath name) : (named scope name).Fits scope := by
  unfold named
  split
  · exact ⟨h, ‹_›⟩
  · exact ⟨h, ‹_›⟩

/-- What is asked of a type where there may be none. -/
def FitsIfAny (scope : List String) (found : Option Ty) : Prop := ∀ t ∈ found, t.Fits scope

theorem fitsIfAny_none : FitsIfAny scope none := fun t h => absurd h (Option.not_mem_none t)

theorem reads_typeWithin (h : ts.AreOf x) :
    Reads x (FitsIfAny scope) (typeWithin scope outer ts) := by
  have hclose : ∀ {outer : List Enclosure} {t : Ty} {ts : Tokens}, t.Fits scope → ts.AreOf x →
      Reads x (FitsIfAny scope) (close outer t ts >>= fun r => .ok (some r.1, r.2)) := by
    intro outer t ts ht hts
    refine (reads_close ht hts).bind fun u rest hu hrest => reads_ok ?_ hrest
    rintro _ ⟨⟩
    exact hu
  fun_induction typeWithin scope outer ts with
  | case1 | case3 | case4 => exact hclose ⟨trivial, trivial⟩ h.2
  | case2 =>
    refine (reads_pathFrom (Name.isPath_of_isIdent (h.1.ident _ rfl)) h.2).bind ?_
    exact fun name rest hname hrest => hclose (fits_named hname) hrest
  | case5 | case8 => exact reads_noType fitsIfAny_none h
  | case6 =>
    rename_i ih
    exact ih h.2.2
  | case7 => exact reads_unexpected h.2

theorem reads_type? (scope : List String) (h : ts.AreOf x) :
    Reads x (FitsIfAny scope) (ts.type? scope) :=
  reads_typeWithin h

theorem checks_wholeType (h : ts.AreOf x) : Checks x (Ty.Fits scope) (ts.wholeType scope) := by
  refine Gives.bind (reads_type? scope h) fun r hr => ?_
  obtain ⟨found, rest⟩ := r
  cases found with
  | none => exact checks_unexpected hr.2
  | some t =>
    refine Gives.bind (P := fun _ => True) ?_ fun _ _ => hr.1 t rfl
    unfold endOfText
    split
    · exact checks_ok trivial
    · exact checks_unexpected hr.2

end Tokens

/-- A type that is read from a text can be written again, in the same scope. -/
theorem Ty.fits_of_parse {text : String} {scope : List String} {t : Ty}
    (h : Ty.parse text scope = .ok t) : t.Fits scope :=
  (Tokens.checks_wholeType (Tokens.areOf_ofText text .start)).of_ok h

end Bindery
