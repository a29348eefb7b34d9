import Lox.Proofs.Compile.Nesting
import Lox.Proofs.Declared
import Lox.Proofs.History
import Lox.Proofs.Listing

/-! What the listing of a function contains. A listing goes on with the functions among the constants, and nothing in it
bounds how deep they are nested or remembers what has been listed. It ends because a function is greater than the
functions among its constants. For an accepted source it consists of the code of the script and of the functions that
the source declares, each once and in the order of their declarations: the functions among the constants of a function
are those that its body declares itself. -/

namespace Lox

namespace Chunk

mutual

/-- The text is the listing of a chunk under a title: first its own instructions, up to the end, and then those of the
functions among its constants. -/
inductive Lists (h : Heap) : Chunk → String → String → Prop where
  | chunk {c : Chunk} {title nested : String} {offsets : List Nat} (hw : c.Walk h 0 offsets)
      (hn : ListsAll h c.constants.items.toList nested) :
      Lists h c title ("== " ++ title ++ " ==\n" ++ c.listed h offsets ++ nested)

/-- The text consists of the listings of the functions among some values. -/
inductive ListsAll (h : Heap) : List Value → String → Prop where
  | nil : ListsAll h [] ""
  | other {v : Value} {rest : List Value} {text : String} (hv : v.handle?.bind h.function? = none)
      (hr : ListsAll h rest text) : ListsAll h (v :: rest) text
  | function {v : Value} {rest : List Value} {f : FunctionObject} {text more : String}
      (hv : v.handle?.bind h.function? = some f) (hf : Lists h f.chunk (h.functionText f) text)
      (hr : ListsAll h rest more) : ListsAll h (v :: rest) (text ++ more)

end

variable {c : Chunk} {h : Heap}

theorem Walk.unique {offset : Nat} {xs ys : List Nat} (hx : c.Walk h offset xs) (hy : c.Walk h offset ys) :
    xs = ys := by
  induction hx generalizing ys with
  | done =>
      cases hy with
      | done => rfl
      | step hlt _ => exact absurd hlt (Nat.lt_irrefl _)
  | step hlt _ ih =>
      cases hy with
      | done => exact absurd hlt (Nat.lt_irrefl _)
      | step _ hy => rw [ih hy]

mutual

/-- There is at most one listing. -/
theorem Lists.unique {c : Chunk} {title text text' : String} :
    Lists h c title text → Lists h c title text' → text = text'
  | .chunk hw hn, .chunk hw' hn' => by rw [hw.unique hw', hn.unique hn']

theorem ListsAll.unique {values : List Value} {text text' : String} : ListsAll h values text → ListsAll h values text' →
    text = text'
  | .nil, .nil => rfl
  | .other _ hr, .other _ hr' => hr.unique hr'
  | .other hv _, .function hv' _ _ | .function hv _ _, .other hv' _ => nomatch hv.symm.trans hv'
  | .function hv hf hr, .function hv' hf' hr' => by
      obtain rfl := Option.some.inj (hv.symm.trans hv')
      rw [hf.unique hf', hr.unique hr']

end

/-- Appending the listing of each function among the constants gives a listing. -/
theorem lists_foldl {title : String} {list : FunctionObject → String} {step : String → Value → String}
    (hother : ∀ text v, v.handle?.bind h.function? = none → step text v = text)
    (hfunction : ∀ text v f, v.handle?.bind h.function? = some f → step text v = text ++ list f)
    (hlist : ∀ k ∈ c.handles, ∀ f, h.function? k = some f → Lists h f.chunk (h.functionText f) (list f)) :
    Lists h c title (c.constants.items.foldl step (c.listCode h c.size 0 ("== " ++ title ++ " ==\n"))) := by
  have hfold : ∀ (values : List Value) (text : String), (∀ v ∈ values, v ∈ c.constants.items.toList) →
      ∃ nested, ListsAll h values nested ∧ values.foldl step text = text ++ nested := by
    intro values
    induction values with
    | nil => exact fun text _ => ⟨"", .nil, String.append_empty.symm⟩
    | cons v rest ih =>
        intro text hvalues
        obtain ⟨hv, hrest⟩ := List.forall_mem_cons.mp hvalues
        rw [List.foldl_cons]
        cases hf : v.handle?.bind h.function? with
        | none =>
            obtain ⟨nested, hn, heq⟩ := ih text hrest
            exact ⟨nested, .other hf hn, by rw [hother text v hf, heq]⟩
        | some f =>
            obtain ⟨k, hk, hobject⟩ := Option.bind_eq_some_iff.mp hf
            have hl := hlist k (List.mem_filterMap.mpr ⟨v, hv, hk⟩) f hobject
            obtain ⟨nested, hn, heq⟩ := ih (text ++ list f) hrest
            exact ⟨_, .function hf hl hn, by rw [hfunction text v f hf, heq, String.append_assoc]⟩
  obtain ⟨offsets, hw, hcode⟩ := exists_walk (c := c) (h := h) c.size (Nat.zero_le _) (by omega)
    ("== " ++ title ++ " ==\n")
  obtain ⟨nested, hn, heq⟩ := hfold c.constants.items.toList (c.listCode h c.size 0 ("== " ++ title ++ " ==\n"))
    fun _ => id
  rw [← Array.foldl_toList, heq, hcode]
  exact .chunk hw hn

/-- A level of the bounded listing is right if the level below it is. -/
theorem lists_listNested_succ {depth : Nat} {title : String}
    (hbelow : ∀ k ∈ c.handles, ∀ f, h.function? k = some f →
      Lists h f.chunk (h.functionText f) (listNested h depth f.chunk (h.functionText f))) :
    Lists h c title (listNested h (depth + 1) c title) := by
  rw [listNested]
  refine lists_foldl (fun text v hv => ?_) (fun text v f hf => ?_) hbelow
  · simp only [hv]
  · simp only [hf]

/-- In a heap where functions are greater than those among their constants, the bound on the depth is never reached. -/
theorem lists_listNested (ho : h.Ordered) (depth : Nat) {title : String} (hc : ∀ k ∈ c.handles, k.index < depth) :
    Lists h c title (listNested h (depth + 1) c title) := by
  induction depth generalizing c title with
  | zero => exact lists_listNested_succ fun k hk => absurd (hc k hk) (Nat.not_lt_zero _)
  | succ depth ih =>
      refine lists_listNested_succ fun k hk f hf => ih fun l hl => ?_
      exact Nat.lt_of_lt_of_le (ho.handles_lt hf l hl) (Nat.le_of_lt_succ (hc k hk))

end Chunk

namespace Heap

variable {h h' : Heap}

/-- The text is the listing of a function object, or the empty text for anything else. -/
inductive Lists (h : Heap) (k : Handle) : String → Prop where
  | function {f : FunctionObject} {text : String} (hf : h.function? k = some f)
      (hl : f.chunk.Lists h (h.functionText f) text) : Lists h k text
  | other (hf : h.function? k = none) : Lists h k ""

theorem Lists.unique {k : Handle} {text text' : String} (hl : h.Lists k text) (hl' : h.Lists k text') :
    text = text' := by
  cases hl with
  | function hf hl =>
      cases hl' with
      | function hf' hl' =>
          obtain rfl := Option.some.inj (hf.symm.trans hf')
          exact hl.unique hl'
      | other hf' => cases hf.symm.trans hf'
  | other hf =>
      cases hl' with
      | function hf' _ => cases hf.symm.trans hf'
      | other _ => rfl

theorem Ordered.lists_listing (ho : h.Ordered) (k : Handle) : h.Lists k (h.listing k) := by
  unfold Heap.listing
  cases hf : h.function? k with
  | none => exact .other hf
  | some f =>
      have hk := lt_size_of_get? (function?_eq_some_iff.mp hf)
      exact .function hf (Chunk.lists_listNested ho _ fun l hl => Nat.lt_trans (ho.handles_lt hf l hl) hk)

/-- The listing of a function's own code under its title. -/
def codeListing (h : Heap) (k : Handle) : String :=
  match h.function? k with
  | some f => f.chunk.listCode h f.chunk.size 0 ("== " ++ h.functionText f ++ " ==\n")
  | none => ""

theorem codeListing_eq {k : Handle} {f : FunctionObject} (hf : h.function? k = some f) :
    ∃ offsets, f.chunk.Walk h 0 offsets ∧
      h.codeListing k = "== " ++ h.functionText f ++ " ==\n" ++ f.chunk.listed h offsets := by
  unfold codeListing
  rw [hf]
  exact Chunk.exists_walk _ (Nat.zero_le _) (by omega) _

/-- The functions among some values are listed one after the other. -/
theorem Ordered.eq_join_of_listsAll (ho : h.Ordered) {values : List Value} {text : String}
    (hn : Chunk.ListsAll h values text) : text = String.join
      (((values.filterMap Value.handle?).filter fun k => (h.function? k).isSome).map h.listing) := by
  induction values generalizing text with
  | nil =>
      cases hn
      rfl
  | cons v rest ih =>
      cases hn with
      | other hv hr =>
          rw [ih hr, List.filterMap_cons]
          cases hk : v.handle? with
          | none => rfl
          | some k =>
              have hnone : h.function? k = none := by rwa [hk] at hv
              simp [hnone]
      | function hv hl hr =>
          obtain ⟨k, hk, hf⟩ := Option.bind_eq_some_iff.mp hv
          rw [ih hr, (Lists.function hf hl).unique (ho.lists_listing k)]
          simp [hk, hf, String.join_cons]

/-- After its own code the listing of a function goes on with the functions among its constants. -/
theorem Ordered.listing_eq (ho : h.Ordered) {k : Handle} {f : FunctionObject} (hf : h.function? k = some f) :
    h.listing k = h.codeListing k ++ String.join ((f.chunk.nested h).map h.listing) := by
  obtain ⟨offsets, hw, hcode⟩ := codeListing_eq hf
  have hlists := ho.lists_listing k
  generalize h.listing k = text at hlists ⊢
  cases hlists with
  | other hnone => cases hf.symm.trans hnone
  | function hg hl =>
      obtain rfl := Option.some.inj (hf.symm.trans hg)
      cases hl with
      | chunk hw' hn => rw [hcode, hw.unique hw', ho.eq_join_of_listsAll hn, Chunk.nested, Chunk.handles]

end Heap

/-! ### Accepted sources -/

/-- All functions of a source, in the order of their declarations; the script comes first. -/
def Block.listed (p : Block) (script : Handle) : List (Handle × Routine) := (script, ⟨none, [], p⟩) :: p.declared

theorem Block.listed_perm (p : Block) (script : Handle) : (p.listed script).Perm (p.routines script) :=
  (p.declared_perm.cons _).trans (List.perm_append_singleton _ _).symm

theorem Block.listed_infix {p : Block} {script : Handle} {entry : Handle × Routine} (h : entry ∈ p.listed script) :
    entry :: entry.2.body.declared <:+: p.listed script := by
  rcases List.mem_cons.mp h with rfl | h
  · exact List.infix_rfl
  · exact (p.declared_infix h).trans (List.suffix_cons _ _).isInfix

/-- The functions that a function of a source declares itself are made in the order of their declarations. -/
theorem Block.direct_sublist_routines {p : Block} {script : Handle} {entry : Handle × Routine}
    (h : entry ∈ p.routines script) : entry.2.body.direct.Sublist (p.routines script) := by
  rcases List.mem_append.mp h with h | h
  · exact (p.inside_sublist h).trans (List.sublist_append_left _ _)
  · cases List.mem_singleton.mp h
    exact p.direct_sublist.trans (List.sublist_append_left _ _)

/-- A function that a source declares is declared by the body of another function or of the script. -/
theorem Block.exists_outer {p : Block} (script : Handle) {entry : Handle × Routine} (h : entry ∈ p.functions) :
    ∃ k r, (k, r) ∈ p.routines script ∧ entry ∈ r.body.direct := by
  rcases p.direct_or_inside h with hdirect | ⟨outer, houter, hdirect⟩
  · exact ⟨_, _, List.mem_append_right _ (List.mem_singleton_self _), hdirect⟩
  · exact ⟨_, _, List.mem_append_left _ houter, hdirect⟩

namespace Heap

/-- The heap has the functions of a source. Each is the code of its part of the tree, and the functions among its
constants are those that its body declares itself. -/
structure Carries (h : Heap) (script : Handle) (p : Block) : Prop where
  coded : ∀ k r, (k, r) ∈ p.routines script → ∃ f code, Coded h k r f code
  nested : ∀ k r f, (k, r) ∈ p.routines script → h.function? k = some f → f.chunk.nested h = r.body.direct.map (·.1)

variable {h h' : Heap} {script : Handle} {p : Block}

theorem Carries.extend (hc : h.Carries script p) (ho : h.Ordered) (hext : h.Extends h') : h'.Carries script p where
  coded k r hr := by
    obtain ⟨f, code, hf⟩ := hc.coded k r hr
    exact ⟨f, code, hf.grow hext⟩
  nested k r f hr hf := by
    obtain ⟨f', code, hf'⟩ := hc.coded k r hr
    obtain rfl : f' = f := Option.some.inj ((hext.function? hf'.object).symm.trans hf)
    rw [ho.nested_extends hext hf'.object]
    exact hc.nested k r f' hr hf'.object

/-- The script is made last. -/
theorem Makes.le_script (hm : h.Makes h' (p.routines script)) {k : Handle} {r : Routine}
    (hr : (k, r) ∈ p.routines script) :
    k.index ≤ script.index := by
  rcases List.mem_append.mp hr with hr | hr
  · exact Nat.le_of_lt ((List.pairwise_append.mp hm.ordered).2.2 _ hr _ (List.mem_singleton_self _))
  · cases List.mem_singleton.mp hr
    exact Nat.le_refl _

/-- What a body declares itself is among the constants. -/
theorem Makes.mem_nested_of_direct (hm : h.Makes h' (p.routines script)) {k : Handle} {r : Routine} {f : FunctionObject}
    (hr : (k, r) ∈ p.routines script) (hf : h'.function? k = some f) {entry : Handle × Routine}
    (hentry : entry ∈ r.body.direct) : entry.1 ∈ f.chunk.nested h' := by
  obtain ⟨f', code, hc⟩ := hm.coded k r hr
  obtain rfl : f' = f := Option.some.inj (hc.object.symm.trans hf)
  obtain ⟨g, _, hg⟩ := hm.coded entry.1 entry.2 ((Block.direct_sublist_routines hr).subset hentry)
  exact Chunk.mem_nested.mpr ⟨Chunk.mem_handles.mpr (hc.constant_of_direct hentry), g, hg.object⟩

/-- What is among the constants of a function was made for the same source, and its body declares it itself: another
function that declares it would hold it as well. -/
theorem Makes.direct_of_mem_nested (hm : h.Makes h' (p.routines script)) {cs : List Chunk}
    (hn : h'.Nests h.cells.size cs)
    (hpool : ∀ k f, h.cells.size ≤ k.index → h'.function? k = some f → f.chunk.Pooled h' h.cells.size)
    {k l : Handle} {r : Routine} {f : FunctionObject} (hr : (k, r) ∈ p.routines script) (hf : h'.function? k = some f)
    (hl : l ∈ f.chunk.nested h') : ∃ q, (l, q) ∈ r.body.direct := by
  have hk := (hm.fresh k r hr).1
  obtain ⟨hhandle, g, hg⟩ := Chunk.mem_nested.mp hl
  obtain ⟨i, hi⟩ := Chunk.mem_handles.mp hhandle
  have hnew : h.cells.size ≤ l.index := by
    rcases hpool k f hk hf i l hi with ⟨s, hs⟩ | hnew
    · rw [string?_eq_some_iff, function?_eq_some_iff.mp hg] at hs
      cases hs
    · exact hnew
  obtain ⟨q, hq⟩ := hm.made l g hnew hg
  have hfunction : (l, q) ∈ p.functions := by
    rcases List.mem_append.mp hq with hq | hq
    · exact hq
    · -- the script is greater than the function that would hold it
      cases List.mem_singleton.mp hq
      exact absurd (hn.ordered k f i _ hf hi) (Nat.not_lt.mpr (hm.le_script hr))
  obtain ⟨k', r', hr', hdirect⟩ := Block.exists_outer script hfunction
  obtain ⟨f', _, hf'⟩ := hm.coded k' r' hr'
  obtain rfl := hn.once hk hf (hm.fresh k' r' hr').1 hf'.object hl (hm.mem_nested_of_direct hr' hf'.object hdirect)
  cases List.inj_on_of_nodup_map hm.nodup hr hr' rfl
  exact ⟨q, hdirect⟩

/-- The heap has the functions of a source that is accepted. -/
theorem Makes.carries (hm : h.Makes h' (p.routines script)) {cs : List Chunk} (hn : h'.Nests h.cells.size cs)
    (hpool : ∀ k f, h.cells.size ≤ k.index → h'.function? k = some f → f.chunk.Pooled h' h.cells.size) :
    h'.Carries script p := by
  refine ⟨hm.coded, fun k r f hr hf => ?_⟩
  have : Std.Antisymm fun a b : Handle => a.index < b.index := ⟨fun a b hab hba => absurd hab (Nat.lt_asymm hba)⟩
  have : Std.Irrefl fun a b : Handle => a.index < b.index := ⟨fun a => Nat.lt_irrefl _⟩
  have hsorted : (r.body.direct.map (·.1)).Pairwise fun a b => a.index < b.index :=
    List.pairwise_map.mpr (hm.ordered.sublist (Block.direct_sublist_routines hr))
  -- both lists are in the order in which the functions were made
  refine (hn.sorted (hm.fresh k r hr).1 hf).eq_of_mem_iff hsorted fun l => ⟨fun hl => ?_, fun hl => ?_⟩
  · obtain ⟨q, hdirect⟩ := hm.direct_of_mem_nested hn hpool hr hf hl
    exact List.mem_map.mpr ⟨_, hdirect, rfl⟩
  · obtain ⟨entry, hentry, rfl⟩ := List.mem_map.mp hl
    exact hm.mem_nested_of_direct hr hf hentry

end Heap

section Joined

variable {h : Heap}

mutual

theorem Stmt.join_declared : (s : Stmt) → (∀ entry ∈ s.functions, h.listing entry.1 =
      h.codeListing entry.1 ++ String.join (entry.2.body.direct.map fun inner => h.listing inner.1)) →
    String.join (s.direct.map fun entry => h.listing entry.1) =
      String.join (s.declared.map fun entry => h.codeListing entry.1)
  | .expression _, _ | .print _, _ | .ret _, _ | .var _ _, _ => rfl
  | .cond _ yes no, hfs => by
      rw [Stmt.functions, List.forall_mem_append] at hfs
      rw [Stmt.direct, Stmt.declared, List.map_append, List.map_append, String.join_append, String.join_append,
        yes.join_declared hfs.1, no.join_declared hfs.2]
  | .loop _ _ body, hfs => body.join_declared hfs
  | .block body, hfs => body.join_declared hfs
  | .function label name params body, hfs => by
      rw [Stmt.functions, List.forall_mem_append] at hfs
      have hown := hfs.2 _ (List.mem_singleton_self _)
      rw [body.join_declared hfs.1] at hown
      rw [Stmt.direct, Stmt.declared, List.map_singleton, List.map_cons, String.join_cons, String.join_cons,
        String.join_nil, String.append_empty, hown]

/-- Listed one after the other, the functions that a sequence declares itself are all functions that it declares. -/
theorem Block.join_declared : (b : Block) → (∀ entry ∈ b.functions, h.listing entry.1 =
      h.codeListing entry.1 ++ String.join (entry.2.body.direct.map fun inner => h.listing inner.1)) →
    String.join (b.direct.map fun entry => h.listing entry.1) =
      String.join (b.declared.map fun entry => h.codeListing entry.1)
  | .nil, _ => rfl
  | .cons first rest, hfs => by
      rw [Block.functions, List.forall_mem_append] at hfs
      rw [Block.direct, Block.declared, List.map_append, List.map_append, String.join_append, String.join_append,
        first.join_declared hfs.1, rest.join_declared hfs.2]

end

end Joined

namespace Heap

variable {h h' : Heap} {script : Handle} {p : Block}

/-- The listing of a script is the code of all functions of the source. -/
theorem Carries.listing_eq (hc : h.Carries script p) (ho : h.Ordered) :
    h.listing script = String.join ((p.listed script).map fun entry => h.codeListing entry.1) := by
  have hown : ∀ entry ∈ p.routines script, h.listing entry.1 =
      h.codeListing entry.1 ++ String.join (entry.2.body.direct.map fun inner => h.listing inner.1) := by
    intro entry hentry
    obtain ⟨f, _, hf⟩ := hc.coded _ _ hentry
    rw [ho.listing_eq hf.object, hc.nested _ _ f hentry hf.object, List.map_map]
    rfl
  obtain ⟨hfunctions, hscript⟩ := List.forall_mem_append.mp hown
  rw [hscript _ (List.mem_singleton_self _), p.join_declared hfunctions, Block.listed, List.map_cons, String.join_cons]

/-- What the listing of a script contains: under its own title the code of each function of the source, up to the end,
once, in the order of the declarations, and so that what is declared within a function follows its code. -/
structure Contents (h : Heap) (script : Handle) (p : Block) : Prop where
  coded : ∀ k r, (k, r) ∈ p.listed script → ∃ f code offsets, Coded h k r f code ∧ f.chunk.Walk h 0 offsets ∧
    h.codeListing k = "== " ++ (Datum.function k r).display ++ " ==\n" ++ f.chunk.listed h offsets
  once : ((p.listed script).map (·.1)).Nodup
  inside : ∀ entry ∈ p.listed script, entry :: entry.2.body.declared <:+: p.listed script
  listing : h.listing script = String.join ((p.listed script).map fun entry => h.codeListing entry.1)

theorem Carries.contents (hc : h.Carries script p) (ho : h.Ordered) (hnodup : ((p.routines script).map (·.1)).Nodup) :
    h.Contents script p where
  coded k r hr := by
    obtain ⟨f, code, hf⟩ := hc.coded k r ((p.listed_perm script).mem_iff.mp hr)
    obtain ⟨offsets, hw, hcode⟩ := codeListing_eq hf.object
    exact ⟨f, code, offsets, hf, hw, Library.functionText_coded hf ▸ hcode⟩
  once := ((p.listed_perm script).map _).nodup_iff.mpr hnodup
  inside _ hentry := Block.listed_infix hentry
  listing := hc.listing_eq ho

/-! ### All heaps -/

/-- The heaps that come about when texts are interned, functions of the host and functions with constants that are
alive are made, sources are compiled, accepted or not, and everything is freed, in any order. -/
inductive Built : Heap → Prop where
  | new (header : Header) : Built (new header)
  | intern {h : Heap} (hb : Built h) (chars : String) : Built (h.intern chars).1
  | native {h : Heap} (hb : Built h) (n : NativeObject) : Built (h.allocate (.native n)).1
  | function {h : Heap} (hb : Built h) (f : FunctionObject) (hf : ∀ i v, f.chunk.constant? i = some v → v.Live h) :
      Built (h.allocate (.function f)).1
  | compile {h : Heap} (hb : Built h) {source : String} {printCode : Bool} {journal : Journal} {c : Compilation}
      (hc : compile source h printCode journal = .ok c) : Built c.heap
  | free {h : Heap} (hb : Built h) : Built h.free.1

namespace Built

theorem reached (hb : h.Built) : h.Reached := by
  induction hb with
  | new header => exact .new header
  | intern _ chars ih => exact .intern ih chars
  | native _ n ih => exact .native ih n
  | function _ f _ ih => exact .function ih f
  | compile _ hc ih => exact .compile ih hc
  | free _ ih => exact .free ih

theorem ordered (hb : h.Built) : h.Ordered := by
  induction hb with
  | new header => exact ordered_new header
  | intern _ chars ih => exact ih.of_same_functions fun _ _ => function?_of_intern
  | native _ n ih => exact ih.allocate nofun
  | function _ f hf ih =>
      refine ih.allocate fun g hg l hl => ?_
      obtain rfl := Object.function.inj hg
      obtain ⟨i, hi⟩ := Chunk.mem_handles.mp hl
      obtain ⟨o, ho⟩ := hf i _ hi l rfl
      exact lt_size_of_get? ho
  | compile _ hc ih =>
      obtain ⟨cs, hn⟩ := compile_nests hc ih
      exact hn.ordered
  | free _ _ => exact ordered_free _

end Built

/-- **Nesting.** In every heap that comes about, the objects among the constants of a function were there before it. So
the listing of any handle ends, and no bound on the depth cuts it short. The listing of an accepted source, as long as
its objects are kept, consists of the code of the script and of the functions that the source declares, each once, in
the order of the declarations, and each before those inside of it. -/
theorem Built.listing_ends (hb : h.Built) :
    (∀ k f i l, h.function? k = some f → f.chunk.constant? i = some (.object l) → l.index < k.index) ∧
    (∀ k, h.Lists k (h.listing k) ∧ ∀ text, h.Lists k text → text = h.listing k) ∧
    ∀ source printCode journal c script, Lox.compile source h printCode journal = .ok c → c.result = .ok script →
      ∃ p, Block.ReadsAll (tokenize source) p ∧
        (funNames (tokenize source)).map some = p.declared.map (·.2.name) ∧
        ∀ h', c.heap.Extends h' → h'.Built → h'.Contents script p := by
  refine ⟨hb.ordered, fun k => ⟨hb.ordered.lists_listing k, fun text hl => hl.unique (hb.ordered.lists_listing k)⟩, ?_⟩
  intro source printCode journal c script hc hok
  obtain ⟨p, hreads, hm⟩ := compile_accepted hc hok hb.reached.interned
  obtain ⟨cs, hn⟩ := compile_nests hc hb.ordered
  have hcarries : c.heap.Carries script p := Makes.carries hm hn (compile_pooled hc hb.reached.interned)
  exact ⟨p, hreads, hreads.funNames_eq, fun h' hext hb' =>
    (hcarries.extend hn.ordered hext).contents hb'.ordered hm.nodup⟩

/-- Two functions inside of a third are listed after it and before the one that follows it. -/
theorem listing_of_nested_functions : ∃ c script, ∃ p : Block,
    compile "fun a() \x7b fun b() \x7b\x7d fun c() \x7b\x7d \x7d fun d() \x7b\x7d" .empty false .silent = .ok c ∧
    c.result = .ok script ∧ p.declared.map (·.2.name) = [some "a", some "b", some "c", some "d"] ∧
    c.heap.listing script = String.join ((p.listed script).map fun entry => c.heap.codeListing entry.1) := by
  have hrun : ((compile "fun a() \x7b fun b() \x7b\x7d fun c() \x7b\x7d \x7d fun d() \x7b\x7d" .empty false
      .silent).toOption.any fun c => c.result.toOption.any fun _ => true) = true := by decide +kernel
  have hnames : funNames (tokenize "fun a() \x7b fun b() \x7b\x7d fun c() \x7b\x7d \x7d fun d() \x7b\x7d") =
      ["a", "b", "c", "d"] := by decide +kernel
  simp only [Option.any_eq_true, toOption_eq_some] at hrun
  obtain ⟨c, hc, script, hok, -⟩ := hrun
  have hempty : Built empty := .new _
  obtain ⟨p, -, hdeclared, hcontents⟩ := Built.listing_ends hempty |>.2.2 _ _ _ c script hc hok
  rw [hnames] at hdeclared
  exact ⟨c, script, p, hc, hok, hdeclared.symm, (hcontents c.heap (.refl _) (.compile hempty hc)).listing⟩

end Heap

end Lox
