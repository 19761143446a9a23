import Bindery.Proofs.Decl.Signatures

/-!
# Handles are read as they are written

The items of a handle are written constructors first, then the destructor, then methods. Each is
read by itself and added to what the handle has of its kind.
-/
namespace Bindery.Tokens
open Lexeme

variable {ts rest : Tokens} {d : Handle} {ls : List Lexeme}

theorem symbol_of_begins {symbol : String} (h : Begins (Handle.symbolLexemes symbol) ts rest) :
    ts.symbol = .ok (symbol, rest) := by
  obtain ⟨_, _, rfl, _, _, rfl, _, tail, rfl, rfl⟩ := h
  rfl

/-- One more item of a handle is read in front of the others. -/
theorem block_of_handleItem {k : Keyword} {d' : Handle} {mid : Tokens}
    (h : Begins (.keyword k :: ls) ts mid) (hi : ts.handleItem d = .ok (d', mid)) :
    block handleItems .curlyClose d ts = block handleItems .curlyClose d' mid := by
  have havoids : ts.Avoids [.curlyClose] := h.avoids nofun
  exact block_step (punct?_of_avoids havoids List.mem_cons_self) hi

theorem constructor_of_begins {c : Constructor} (hc : Param.AreWritable [] c.params)
    (h : Begins (Handle.constructorLexemes c) ts rest) :
    ts.handleItem d = .ok ({ d with constructors := d.constructors ++ [c] }, rest) := by
  obtain ⟨_, _, rfl, _, afterName, rfl, h⟩ := h
  obtain ⟨mid, hparams, hsymbol⟩ := begins_append.1 h
  obtain ⟨inner, hopen, hinner⟩ := punct_of_begins hparams
  simp only [handleItem, constructor, ident, hopen, paramList_of_begins hc hinner,
    symbol_of_begins hsymbol, bind, Except.bind]

theorem block_of_constructors {cs : List Constructor} {more : List Lexeme}
    (hcs : ∀ c ∈ cs, Param.AreWritable [] c.params)
    (h : Begins (cs.flatMap Handle.constructorLexemes ++ more) ts rest) :
    ∃ mid, block handleItems .curlyClose d ts =
      block handleItems .curlyClose { d with constructors := d.constructors ++ cs } mid ∧
      Begins more mid rest := by
  induction cs generalizing d ts with
  | nil => exact ⟨ts, by rw [List.append_nil], h⟩
  | cons c cs ih =>
    rw [List.flatMap_cons, List.append_assoc] at h
    obtain ⟨after, hc, hmore⟩ := begins_append.1 h
    have hitem := @constructor_of_begins ts after d c (hcs c List.mem_cons_self) hc
    obtain ⟨mid, hblock, hmid⟩ := @ih after { d with constructors := d.constructors ++ [c] }
      (fun c' hc' => hcs c' (List.mem_cons_of_mem _ hc')) hmore
    refine ⟨mid, ?_, hmid⟩
    rw [block_of_handleItem hc hitem, hblock, List.append_assoc, List.singleton_append]

theorem destructor_of_begins {symbol : String} (hd : d.destructor = none)
    (h : Begins (Handle.destructorLexemes symbol) ts rest) :
    ts.handleItem d = .ok ({ d with destructor := some symbol }, rest) := by
  obtain ⟨_, tail, rfl, h⟩ := h
  simp only [handleItem, hd, symbol_of_begins h, bind, Except.bind]
  rfl

theorem selfParam_of_begins {mutable : Bool} (h : Begins (Handle.selfLexemes mutable) ts rest)
    (name : String) : ts.selfParam name = .ok (mutable, rest) := by
  cases mutable with
  | true =>
    obtain ⟨_, _, rfl, _, tail, rfl, rfl⟩ := h
    rfl
  | false =>
    obtain ⟨_, tail, rfl, rfl⟩ := h
    rfl

theorem method_of_begins {m : Method} (hm : Param.AreWritable [] m.params)
    (ht : m.ret.IsWritable) (hs : m.ret.IsScoped []) (h : Begins (Handle.methodLexemes m) ts rest) :
    ts.handleItem d = .ok ({ d with methods := d.methods ++ [m] }, rest) := by
  obtain ⟨_, _, rfl, _, afterName, rfl, h⟩ := h
  obtain ⟨inner, hopen, h⟩ := punct_of_begins h
  obtain ⟨afterSelf, hself, h⟩ := begins_append.1 h
  obtain ⟨afterParams, hparams, h⟩ := begins_append.1 h
  obtain ⟨afterRet, hret, hsymbol⟩ := begins_append.1 h
  have hreturn := returnType_of_begins ht hs hret (hsymbol.avoids_of_not_mem (by decide))
  simp only [handleItem, method, ident, hopen, selfParam_of_begins hself,
    moreParams_of_begins hm hparams, hreturn, symbol_of_begins hsymbol, bind, Except.bind]

theorem block_of_methods {ms : List Method} {more : List Lexeme}
    (hms : ∀ m ∈ ms, Param.AreWritable [] m.params ∧ m.ret.IsWritable ∧ m.ret.IsScoped [])
    (h : Begins (ms.flatMap Handle.methodLexemes ++ more) ts rest) :
    ∃ mid, block handleItems .curlyClose d ts =
      block handleItems .curlyClose { d with methods := d.methods ++ ms } mid ∧
      Begins more mid rest := by
  induction ms generalizing d ts with
  | nil => exact ⟨ts, by rw [List.append_nil], h⟩
  | cons m ms ih =>
    rw [List.flatMap_cons, List.append_assoc] at h
    obtain ⟨after, hm, hmore⟩ := begins_append.1 h
    obtain ⟨hparams, ht, hs⟩ := hms m List.mem_cons_self
    have hitem := @method_of_begins ts after d m hparams ht hs hm
    obtain ⟨mid, hblock, hmid⟩ := @ih after { d with methods := d.methods ++ [m] }
      (fun m' hm' => hms m' (List.mem_cons_of_mem _ hm')) hmore
    refine ⟨mid, ?_, hmid⟩
    rw [block_of_handleItem hm hitem, hblock, List.append_assoc, List.singleton_append]

/-- The items of a handle, added to one that has nothing but its name. -/
theorem body_of_begins (hd : d.IsWritable) (pos : Position) (h : Begins d.bodyLexemes ts rest) :
    block handleItems .curlyClose { name := d.name, pos } ts =
      .ok ({ d with pos := pos }, rest) := by
  obtain ⟨symbol, hsymbol, -⟩ := hd.destructor
  rw [Handle.bodyLexemes, hsymbol, Option.toList_some, List.flatMap_singleton] at h
  obtain ⟨afterConstructors, hconstructors, h⟩ :=
    @block_of_constructors ts rest { name := d.name, pos } d.constructors _
      (fun c hc => (hd.constructors c hc).2.1) h
  obtain ⟨afterDestructor, hdestructor, h⟩ := begins_append.1 h
  have hitem := @destructor_of_begins afterConstructors afterDestructor
    { name := d.name, constructors := d.constructors, pos } symbol rfl hdestructor
  obtain ⟨afterMethods, hmethods, hclose⟩ :=
    @block_of_methods afterDestructor rest
      { name := d.name, constructors := d.constructors, destructor := some symbol, pos } d.methods _
      (fun m hm => ⟨(hd.methods m hm).2.1, (hd.methods m hm).2.2.1, (hd.methods m hm).2.2.2.1⟩) h
  obtain ⟨mid, hend, rfl⟩ := punct?_of_begins hclose
  rw [hconstructors]
  refine (block_of_handleItem hdestructor hitem).trans ?_
  rw [hmethods, block_close hend, ← hsymbol, List.nil_append]

theorem handle_of_begins (hd : d.IsWritable) (pos : Position)
    (h : Begins (.ident d.name :: .punct .curlyOpen :: d.bodyLexemes) ts rest) :
    ts.handle [] pos = .ok ({ d with pos := pos }, rest) := by
  obtain ⟨_, afterName, rfl, h⟩ := h
  obtain ⟨inner, hopen, h⟩ := punct_of_begins h
  obtain ⟨symbol, hsymbol, -⟩ := hd.destructor
  have hdestructor : d.destructor ≠ none := by
    rw [hsymbol]
    exact nofun
  simp only [handle, ident, Attribute.refuse, hopen, body_of_begins hd pos h, bind, Except.bind,
    if_neg hdestructor, if_neg hd.constructors_ne_nil]

end Bindery.Tokens
