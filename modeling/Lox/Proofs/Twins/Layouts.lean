import Lox.Proofs.Layout
import Lox.Proofs.Unambiguous

/-! Two layouts of one tree. Where code stands, how long the indices of its constants are and what its functions are
called differ from one compilation to the next; the instructions are the same one by one, and their jumps go to places
that go together. -/

namespace Lox

/-- The instructions do the same, if jumps may go to places that go together, and functions that go together may be
pushed. -/
inductive Instr.Matches (J : Nat → Nat → Prop) (F : Handle → Handle → Prop) : Instr → Instr → Prop where
  | plain (op : Opcode) : Matches J F (.plain op) (.plain op)
  | number (x : Float) (wide wide' : Bool) : Matches J F (.constant (.number x) wide) (.constant (.number x) wide')
  | text (chars : String) (wide wide' : Bool) :
      Matches J F (.constant (.text chars) wide) (.constant (.text chars) wide')
  | function {label label' : Handle} (h : F label label') (wide wide' : Bool) :
      Matches J F (.constant (.function label) wide) (.constant (.function label') wide')
  | getLocal (name : String) (slot : Nat) : Matches J F (.getLocal name slot) (.getLocal name slot)
  | setLocal (name : String) (slot : Nat) : Matches J F (.setLocal name slot) (.setLocal name slot)
  | getGlobal (name : String) : Matches J F (.getGlobal name) (.getGlobal name)
  | setGlobal (name : String) : Matches J F (.setGlobal name) (.setGlobal name)
  | defineGlobal (name : String) : Matches J F (.defineGlobal name) (.defineGlobal name)
  | jump {x x' : Nat} (h : J x x') : Matches J F (.jump x) (.jump x')
  | jumpIfFalse {x x' : Nat} (h : J x x') : Matches J F (.jumpIfFalse x) (.jumpIfFalse x')
  | loop {x x' : Nat} (h : J x x') : Matches J F (.loop x) (.loop x')
  | call (count : Nat) : Matches J F (.call count) (.call count)

/-- The instructions at the spots do the same, with the same variables and as many values below. -/
structure Spot.Matches (J : Nat → Nat → Prop) (F : Handle → Handle → Prop) (s s' : Spot) : Prop where
  instr : s.instr.Matches J F s'.instr
  scope : s.scope = s'.scope
  pending : s.pending = s'.pending

/-- Two pieces of code have their spots one by one at places that go together, and their ends go together too. -/
structure Abreast (J : Nat → Nat → Prop) (sp : List Spot) (b : Nat) (sp' : List Spot) (b' : Nat) : Prop where
  spots : List.Forall₂ (fun s s' => J s.offset s'.offset) sp sp'
  exit : J b b'

/-- Two pieces of code do the same spot by spot, wherever they stand, if the places outside them that they jump to go
together. -/
structure Parallel (F : Handle → Handle → Prop) (exits : List (Nat × Nat)) (a : Nat) (sp : List Spot) (b : Nat)
    (a' : Nat) (sp' : List Spot) (b' : Nat) : Prop where
  left : Contiguous a sp b
  right : Contiguous a' sp' b'
  length : sp.length = sp'.length
  spots : ∀ J, Abreast J sp b sp' b' → (∀ p ∈ exits, J p.1 p.2) → List.Forall₂ (Spot.Matches J F) sp sp'

theorem forall₂_append {α β : Type} {R : α → β → Prop} {as cs : List α} {bs ds : List β}
    (hlen : as.length = bs.length) (h : List.Forall₂ R (as ++ cs) (bs ++ ds)) : List.Forall₂ R as bs ∧
    List.Forall₂ R cs ds := by
  have htake := List.forall₂_take as.length h
  have hdrop := List.forall₂_drop as.length h
  rw [List.take_left, List.take_left' hlen.symm] at htake
  rw [List.drop_left, List.drop_left' hlen.symm] at hdrop
  exact ⟨htake, hdrop⟩

namespace Abreast

variable {J : Nat → Nat → Prop} {a m b a' m' b' : Nat} {sp sp' sq sq' : List Spot}

/-- The beginnings of two pieces of code go together if their spots do. -/
theorem start (h : Abreast J sp b sp' b') (hl : Contiguous a sp b) (hr : Contiguous a' sp' b') : J a a' := by
  obtain ⟨hspots, hexit⟩ := h
  cases hspots with
  | nil =>
      obtain rfl : a = b := hl
      obtain rfl : a' = b' := hr
      exact hexit
  | cons h =>
      obtain ⟨rfl, -⟩ := hl
      obtain ⟨rfl, -⟩ := hr
      exact h

theorem right (h : Abreast J (sp ++ sq) b (sp' ++ sq') b') (hlen : sp.length = sp'.length) : Abreast J sq b sq' b' :=
  ⟨(forall₂_append hlen h.spots).2, h.exit⟩

theorem left (h : Abreast J (sp ++ sq) b (sp' ++ sq') b') (hlen : sp.length = sp'.length) (hl : Contiguous m sq b)
    (hr : Contiguous m' sq' b') : Abreast J sp m sp' m' :=
  ⟨(forall₂_append hlen h.spots).1, (h.right hlen).start hl hr⟩

theorem tail {s s' : Spot} (h : Abreast J (s :: sp) b (s' :: sp') b') : J s.offset s'.offset ∧ Abreast J sp b sp' b' :=
  have hcons := List.forall₂_cons.mp h.spots
  ⟨hcons.1, hcons.2, h.exit⟩

/-- After instructions that go together the places go together. -/
theorem next (h : Abreast J sp b sp' b') (hl : Contiguous a sp b) (hr : Contiguous a' sp' b') {s s' : Spot}
    (hs : (s, s') ∈ sp.zip sp') : J s.next s'.next := by
  induction sp generalizing a a' sp' with
  | nil => cases hs
  | cons u us ih =>
      cases sp' with
      | nil => cases hs
      | cons u' us' =>
          rw [List.zip_cons_cons, List.mem_cons] at hs
          rcases hs with hs | hs
          · cases hs
            exact h.tail.2.start hl.2 hr.2
          · exact ih h.tail.2 hl.2 hr.2 hs

theorem mono {K : Nat → Nat → Prop} (h : Abreast J sp b sp' b') (hJK : ∀ x x', J x x' → K x x') :
    Abreast K sp b sp' b' :=
  ⟨h.spots.imp fun _ _ hs => hJK _ _ hs, hJK _ _ h.exit⟩

end Abreast

/-- The places of two pieces of code, spot by spot, and the ends. -/
inductive Along (sp : List Spot) (b : Nat) (sp' : List Spot) (b' : Nat) : Nat → Nat → Prop where
  | spot {s s' : Spot} (h : (s, s') ∈ sp.zip sp') : Along sp b sp' b' s.offset s'.offset
  | exit : Along sp b sp' b' b b'

theorem abreast_along {sp sp' : List Spot} (b b' : Nat) (hlen : sp.length = sp'.length) :
    Abreast (Along sp b sp' b') sp b sp' b' :=
  ⟨List.forall₂_iff_zip.mpr ⟨hlen, fun h => .spot h⟩, .exit⟩

/-- The end of a piece of code goes together with nothing but the end of the other one. -/
theorem Along.eq_exit {a b b' x' : Nat} {sp sp' : List Spot} (h : Along sp b sp' b' b x') (hc : Contiguous a sp b) :
    x' = b' := by
  generalize hx : b = x at h
  cases h with
  | exit => rfl
  | @spot s s' hs =>
      have hin := (hc.range.2 s (List.of_mem_zip hs).1).2
      have hpos := s.instr.size_pos
      unfold Spot.next at hin
      omega

namespace Parallel

variable {F : Handle → Handle → Prop} {exits exits' : List (Nat × Nat)} {a m b a' m' b' : Nat}
  {sp sp' sq sq' : List Spot} {i i' : Instr} {scope : List String} {t : Nat}

theorem nil : Parallel F exits a [] a a' [] a' := ⟨rfl, rfl, rfl, fun _ _ _ => .nil⟩

theorem cons (hi : ∀ J, (∀ p ∈ exits, J p.1 p.2) → i.Matches J F i')
    (h : Parallel F exits (a + i.size) sp b (a' + i'.size) sp' b') :
    Parallel F exits a (⟨a, i, scope, t⟩ :: sp) b a' (⟨a', i', scope, t⟩ :: sp') b' where
  left := ⟨rfl, h.left⟩
  right := ⟨rfl, h.right⟩
  length := congrArg (· + 1) h.length
  spots J hJ hexits := .cons ⟨hi J hexits, rfl, rfl⟩ (h.spots J hJ.tail.2 hexits)

theorem one (hi : ∀ J, (∀ p ∈ exits, J p.1 p.2) → i.Matches J F i') :
    Parallel F exits a [⟨a, i, scope, t⟩] (a + i.size) a' [⟨a', i', scope, t⟩] (a' + i'.size) := cons hi nil

theorem append (h : Parallel F exits a sp m a' sp' m') (h' : Parallel F exits m sq b m' sq' b') :
    Parallel F exits a (sp ++ sq) b a' (sp' ++ sq') b' where
  left := h.left.append h'.left
  right := h.right.append h'.right
  length := by rw [List.length_append, List.length_append, h.length, h'.length]
  spots J hJ hexits :=
    List.rel_append (h.spots J (hJ.left h.length h'.left h'.right) hexits) (h'.spots J (hJ.right h.length) hexits)

/-- Places that go together anyway are no exits. -/
theorem close (exits' : List (Nat × Nat)) (h : Parallel F exits' a sp b a' sp' b')
    (hexits : ∀ J, Abreast J sp b sp' b' → (∀ p ∈ exits, J p.1 p.2) → ∀ p ∈ exits', J p.1 p.2) :
    Parallel F exits a sp b a' sp' b' :=
  { h with spots := fun J hJ he => h.spots J hJ (hexits J hJ he) }

theorem more (h : Parallel F [] a sp b a' sp' b') : Parallel F exits a sp b a' sp' b' :=
  h.close [] fun _ _ _ => nofun

end Parallel

/-! ### Expressions -/

section Laid

variable {F : Handle → Handle → Prop} {scope : List String} {t a b a' b' : Nat} {sp sp' : List Spot}

mutual

theorem Expr.Laid.parallel : ∀ {t a b a' b' : Nat} {e : Expr} {sp sp' : List Spot}, Expr.Laid scope t a e sp b →
    Expr.Laid scope t a' e sp' b' → Parallel F [] a sp b a' sp' b'
  | _, _, _, _, _, _, _, _, .nil, .nil => .one fun _ _ => .plain _
  | _, _, _, _, _, _, _, _, .yes, .yes => .one fun _ _ => .plain _
  | _, _, _, _, _, _, _, _, .no, .no => .one fun _ _ => .plain _
  | _, _, _, _, _, _, _, _, .number, .number => .one fun _ _ => .number _ _ _
  | _, _, _, _, _, _, _, _, .text, .text => .one fun _ _ => .text _ _ _
  | _, _, _, _, _, _, _, _, .getLocal h, h' => by
      cases h' with
      | getLocal h' =>
          cases h.symm.trans h'
          exact .one fun _ _ => .getLocal _ _
      | getGlobal h' => cases h.symm.trans h'
  | _, _, _, _, _, _, _, _, .getGlobal h, h' => by
      cases h' with
      | getLocal h' => cases h.symm.trans h'
      | getGlobal _ => exact .one fun _ _ => .getGlobal _
  | _, _, _, _, _, _, _, _, .setLocal h he, h' => by
      cases h' with
      | setLocal h' he' =>
          cases h.symm.trans h'
          exact (he.parallel he').append (.one fun _ _ => .setLocal _ _)
      | setGlobal h' _ => cases h.symm.trans h'
  | _, _, _, _, _, _, _, _, .setGlobal h he, h' => by
      cases h' with
      | setLocal h' _ => cases h.symm.trans h'
      | setGlobal _ he' => exact (he.parallel he').append (.one fun _ _ => .setGlobal _)
  | _, _, _, _, _, _, _, _, .unary he, .unary he' => (he.parallel he').append (.one fun _ _ => .plain _)
  | _, _, _, _, _, _, _, _, .binary hl hr, .binary hl' hr' =>
      (hl.parallel hl').append ((hr.parallel hr').append (.one fun _ _ => .plain _))
  | _, _, b, _, b', _, _, _, .and hl hr, .and hl' hr' => by
      refine Parallel.close [(b, b')] ((hl.parallel hl').more.append (.cons ?_ (.cons ?_ (hr.parallel hr').more))) ?_
      · exact fun J hJ => .jumpIfFalse (hJ _ (List.mem_singleton_self _))
      · exact fun _ _ => .plain _
      · exact fun J hJ _ => List.forall_mem_singleton.mpr hJ.exit
  | _, _, b, _, b', _, _, _, .or (m := m) hl hr, .or (m := m') hl' hr' => by
      have hleft : Parallel F [] _ _ m _ _ m' := hl.parallel hl'
      refine Parallel.close [(m + 6, m' + 6), (b, b')]
        (hleft.more.append (.cons ?_ (.cons ?_ (.cons ?_ (hr.parallel hr').more)))) ?_
      · exact fun J hJ => .jumpIfFalse (hJ _ List.mem_cons_self)
      · exact fun J hJ => .jump (hJ (b, b') (by simp))
      · exact fun _ _ => .plain _
      · refine fun J hJ _ => List.forall_mem_cons.mpr ⟨?_, List.forall_mem_singleton.mpr hJ.exit⟩
        exact (hJ.right hleft.length).tail.2.tail.2.tail.1
  | _, _, _, _, _, _, _, _, .call hf ha, .call hf' ha' =>
      (hf.parallel hf').append ((ha.parallel ha').append (.one fun _ _ => .call _))

theorem Args.Laid.parallel : ∀ {t a b a' b' : Nat} {args : Args} {sp sp' : List Spot}, Args.Laid scope t a args sp b →
    Args.Laid scope t a' args sp' b' → Parallel F [] a sp b a' sp' b'
  | _, _, _, _, _, _, _, _, .nil, .nil => .nil
  | _, _, _, _, _, _, _, _, .cons he hr, .cons he' hr' => (he.parallel he').append (hr.parallel hr')

end

/-! ### Statements -/

theorem TestLaid.parallel {exit exit' : Nat} {c : Option Expr} (h : TestLaid scope a c exit sp b)
    (h' : TestLaid scope a' c exit' sp' b') : Parallel F [(exit, exit')] a sp b a' sp' b' := by
  cases h with
  | none =>
      cases h' with
      | none => exact .nil
  | some hc =>
      cases h' with
      | some hc' =>
          refine (hc.parallel hc').more.append (.cons (fun J hJ => ?_) (.one fun _ _ => .plain _))
          exact .jumpIfFalse (hJ _ (List.mem_singleton_self _))

theorem IncrementLaid.parallel {start start' back back' : Nat} {i : Option Expr}
    (h : IncrementLaid scope start a i back sp b) (h' : IncrementLaid scope start' a' i back' sp' b') :
    Parallel F [(start, start')] a sp b a' sp' b' ∧
      ∀ J, Abreast J sp b sp' b' → J start start' → J back back' := by
  cases h with
  | none =>
      cases h' with
      | none => exact ⟨.nil, fun _ _ hs => hs⟩
  | @some m _ _ he =>
      cases h' with
      | @some m' _ _ he' =>
          refine ⟨?_, fun J hJ _ => hJ.tail.2.start ?_ ?_⟩
          · refine Parallel.close [(start, start'), (m + 4, m' + 4)]
              (.cons ?_ ((he.parallel he').more.append (.cons ?_ (.one ?_)))) ?_
            · exact fun J hJ => .jump (hJ (m + 4, m' + 4) (by simp))
            · exact fun _ _ => .plain _
            · exact fun J hJ => .loop (hJ _ List.mem_cons_self)
            · exact fun J hJ hs => List.forall_mem_cons.mpr ⟨hs _ List.mem_cons_self,
                List.forall_mem_singleton.mpr hJ.exit⟩
          · exact he.contiguous.append ⟨rfl, rfl, rfl⟩
          · exact he'.contiguous.append ⟨rfl, rfl, rfl⟩

theorem ExitLaid.parallel {c : Option Expr} (h : ExitLaid scope a c sp b) (h' : ExitLaid scope a' c sp' b') :
    Parallel F [] a sp b a' sp' b' := by
  cases h with
  | none =>
      cases h' with
      | none => exact .nil
  | some =>
      cases h' with
      | some => exact .one fun _ _ => .plain _

theorem pops_parallel (inner : List String) :
    Parallel F [] a (pops scope inner a) (a + inner.length) a' (pops scope inner a') (a' + inner.length) := by
  induction inner generalizing a a' with
  | nil => exact .nil
  | cons x xs ih =>
      rw [List.length_cons, Nat.add_comm xs.length, ← Nat.add_assoc, ← Nat.add_assoc]
      exact .cons (fun _ _ => .plain _) ih

/-- The pieces of a loop make up the loop. -/
theorem loop_parallel {m k n back m' k' n' back' : Nat} {c i : Option Expr} {sc si sb se sc' si' sb' se' : List Spot}
    (hc : TestLaid scope a c (n + 3) sc m) (hi : IncrementLaid scope a m i back si k)
    (he : ExitLaid scope (n + 3) c se b)
    (hc' : TestLaid scope a' c (n' + 3) sc' m') (hi' : IncrementLaid scope a' m' i back' si' k')
    (he' : ExitLaid scope (n' + 3) c se' b') (hb : Parallel F [] k sb n k' sb' n') :
    Parallel F [] a (sc ++ (si ++ (sb ++ ⟨n, .loop back, scope, 0⟩ :: se))) b
      a' (sc' ++ (si' ++ (sb' ++ ⟨n', .loop back', scope, 0⟩ :: se'))) b' := by
  obtain ⟨hinc, hback⟩ := hi.parallel (F := F) hi'
  have htest : Parallel F [(n + 3, n' + 3)] a sc m a' sc' m' := hc.parallel hc'
  have hexit : Parallel F [] (n + 3) se b (n' + 3) se' b' := he.parallel he'
  -- the loop goes back to its beginning or to its increment, and its test and its increment pass by what follows them
  let exits := [(n + 3, n' + 3), (a, a'), (back, back')]
  have htest' : Parallel F exits a sc m a' sc' m' :=
    htest.close _ fun J _ hJ => List.forall_mem_singleton.mpr (hJ _ List.mem_cons_self)
  have hinc' : Parallel F exits m si k m' si' k' :=
    hinc.close _ fun J _ hJ => List.forall_mem_singleton.mpr (hJ (a, a') (by simp [exits]))
  have hrest : Parallel F exits n (⟨n, .loop back, scope, 0⟩ :: se) b n' (⟨n', .loop back', scope, 0⟩ :: se') b' :=
    .cons (fun J hJ => .loop (hJ (back, back') (by simp [exits]))) hexit.more
  have hbody := hb.more.append hrest
  have hall := htest'.append (hinc'.append hbody)
  refine hall.close exits fun J hJ _ => ?_
  have hend : J (n + 3) (n' + 3) :=
    (((hJ.right htest.length).right hinc.length).right hb.length).tail.2.start hexit.left hexit.right
  have hstart : J a a' := hJ.start hall.left hall.right
  have hagain : J back back' := hback J ((hJ.right htest.length).left hinc.length hbody.left hbody.right) hstart
  exact List.forall_mem_cons.mpr ⟨hend, List.forall_mem_cons.mpr ⟨hstart, List.forall_mem_singleton.mpr hagain⟩⟩

mutual

/-- Two layouts of a statement, whose functions may be called differently. -/
theorem Stmt.Laid.parallel {top : Bool} {scope after after' : List String} {a b a' b' : Nat} {s s' : Stmt}
    {sp sp' : List Spot} (h : Stmt.Laid top scope a s sp b after) (h' : Stmt.Laid top scope a' s' sp' b' after')
    (hr : s.Relabels F s') : after = after' ∧ Parallel F [] a sp b a' sp' b' := by
  match h with
  | .expression he =>
      cases hr
      cases h' with
      | expression he' => exact ⟨rfl, (he.parallel he').append (.one fun _ _ => .plain _)⟩
  | .print he =>
      cases hr
      cases h' with
      | print he' => exact ⟨rfl, (he.parallel he').append (.one fun _ _ => .plain _)⟩
  | .ret he =>
      cases hr
      cases h' with
      | ret he' => exact ⟨rfl, (he.parallel he').append (.one fun _ _ => .plain _)⟩
  | .cond (n := n) hc hy hn =>
      cases hr with
      | cond hys hns =>
          cases h' with
          | @cond _ _ _ _ n' _ _ _ _ _ _ _ hc' hy' hn' =>
              obtain ⟨-, hyes⟩ := hy.parallel hy' hys
              obtain ⟨-, hno⟩ := hn.parallel hn' hns
              have htest : Parallel F [] _ _ _ _ _ _ := hc.parallel hc'
              refine ⟨rfl, Parallel.close [(n + 3, n' + 3), (b, b')] (htest.more.append
                (.cons ?_ (.cons ?_ (hyes.more.append (.cons ?_ (.cons ?_ hno.more)))))) ?_⟩
              · exact fun J hJ => .jumpIfFalse (hJ _ List.mem_cons_self)
              · exact fun _ _ => .plain _
              · exact fun J hJ => .jump (hJ (b, b') (by simp))
              · exact fun _ _ => .plain _
              · refine fun J hJ _ => List.forall_mem_cons.mpr ⟨?_, List.forall_mem_singleton.mpr hJ.exit⟩
                exact ((hJ.right htest.length).tail.2.tail.2.right hyes.length).tail.2.tail.1
  | .loop hc hi hb he =>
      cases hr with
      | loop hbs =>
          cases h' with
          | loop hc' hi' hb' he' => exact ⟨rfl, loop_parallel hc hi he hc' hi' he' (hb.parallel hb' hbs).2⟩
  | .block hb =>
      cases hr with
      | block hbs =>
          cases h' with
          | block hb' =>
              obtain ⟨hscope, hbody⟩ := hb.parallel hb' hbs
              obtain rfl := List.append_cancel_right hscope
              exact ⟨rfl, hbody.append (pops_parallel _)⟩
  | .varLocal he =>
      cases hr
      cases h' with
      | varLocal he' => exact ⟨rfl, he.parallel he'⟩
  | .varGlobal he =>
      cases hr
      cases h' with
      | varGlobal he' => exact ⟨rfl, (he.parallel he').append (.one fun _ _ => .defineGlobal _)⟩
  | .functionLocal =>
      cases hr with
      | function hl _ =>
          cases h'
          exact ⟨rfl, .one fun _ _ => .function hl _ _⟩
  | .functionGlobal =>
      cases hr with
      | function hl _ =>
          cases h'
          exact ⟨rfl, .cons (fun _ _ => .function hl _ _) (.one fun _ _ => .defineGlobal _)⟩

theorem Block.Laid.parallel {top : Bool} {scope after after' : List String} {a b a' b' : Nat} {p p' : Block}
    {sp sp' : List Spot} (h : Block.Laid top scope a p sp b after) (h' : Block.Laid top scope a' p' sp' b' after')
    (hr : p.Relabels F p') : after = after' ∧ Parallel F [] a sp b a' sp' b' := by
  match h with
  | .nil =>
      cases hr
      cases h'
      exact ⟨rfl, .nil⟩
  | .cons hs hrest =>
      cases hr with
      | cons hss hrs =>
          cases h' with
          | cons hs' hrest' =>
              obtain ⟨rfl, hfirst⟩ := hs.parallel hs' hss
              obtain ⟨hscope, hlast⟩ := hrest.parallel hrest' hrs
              exact ⟨hscope, hfirst.append hlast⟩

end

end Laid

/-! ### Routines -/

/-- The routines are the same but for the handles of the functions in them, which go together. -/
structure Routine.Relabels (F : Handle → Handle → Prop) (r r' : Routine) : Prop where
  name : r.name = r'.name
  params : r.params = r'.params
  body : r.body.Relabels F r'.body

theorem Contiguous.unique {a b c : Nat} {sp : List Spot} (h : Contiguous a sp b) (h' : Contiguous a sp c) : b = c := by
  induction sp generalizing a with
  | nil => exact Eq.trans (Eq.symm h) h'
  | cons _ _ ih => exact ih h.2 h'.2

/-- The end of a routine does the same everywhere. -/
theorem leaving_parallel (F : Handle → Handle → Prop) (after : List String) (m m' : Nat) :
    Parallel F [] m [⟨m, .plain .pushNil, after, 0⟩, ⟨m + 1, .plain .ret, after, 1⟩] (m + 2)
      m' [⟨m', .plain .pushNil, after, 0⟩, ⟨m' + 1, .plain .ret, after, 1⟩] (m' + 2) :=
  .cons (fun _ _ => .plain _) (.one fun _ _ => .plain _)

/-- The code of a routine does the same as that of the same routine with other handles. -/
theorem Routine.Laid.parallel {F : Handle → Handle → Prop} {r r' : Routine} {sp sp' : List Spot} {e e' : Nat}
    (h : r.Laid sp) (h' : r'.Laid sp') (hr : r.Relabels F r') (hc : Contiguous 0 sp e) (hc' : Contiguous 0 sp' e') :
    Parallel F [] 0 sp e 0 sp' e' := by
  cases h with
  | @mk _ m after hb =>
      cases h' with
      | @mk _ m' _ hb' =>
          rw [← hr.name, ← hr.params] at hb'
          obtain ⟨rfl, hbody⟩ := hb.parallel hb' hr.body
          have hall := hbody.append (leaving_parallel F after m m')
          obtain rfl := hc.unique hall.left
          obtain rfl := hc'.unique hall.right
          exact hall

/-- At the top level no variable is local. -/
theorem Stmt.Laid.after_top {scope after : List String} {a b : Nat} {s : Stmt} {sp : List Spot}
    (h : Stmt.Laid true scope a s sp b after) : after = scope := by
  cases h <;> rfl

/-- The code of one program after another is that of one after that of the other. -/
theorem Block.Laid.of_append {a b : Nat} {scope after : List String} {p q : Block} {sp : List Spot}
    (h : Block.Laid true scope a (p.append q) sp b after) : ∃ sp₁ m sp₂, sp = sp₁ ++ sp₂ ∧
      Block.Laid true scope a p sp₁ m scope ∧ Block.Laid true scope m q sp₂ b after := by
  match p, h with
  | .nil, h => exact ⟨[], a, sp, rfl, .nil, h⟩
  | .cons s rest, .cons hs hr =>
      obtain rfl := hs.after_top
      obtain ⟨sp₁, m, sp₂, rfl, hp, hq⟩ := of_append hr
      exact ⟨_, m, sp₂, (List.append_assoc ..).symm, .cons hs hp, hq⟩

/-! ### The functions of relabelled programs -/

section Functions

variable {F G : Handle → Handle → Prop}

/-- The functions at equal places of two lists. -/
def Zipped (fs fs' : List (Handle × Routine)) (a b : Handle) : Prop := ∃ r r', ((a, r), (b, r')) ∈ fs.zip fs'

/-- Functions that are declared at the same place go together. -/
def Declared (F : Handle → Handle → Prop) : Handle × Routine → Handle × Routine → Prop :=
  fun e e' => F e.1 e'.1 ∧ e.2.Relabels F e'.2

mutual

theorem Stmt.Relabels.functions {s s' : Stmt} (h : s.Relabels F s') :
    List.Forall₂ (Declared F) s.functions s'.functions := by
  match h with
  | .expression | .print | .ret | .var => exact .nil
  | .cond hy hn => exact List.rel_append hy.functions hn.functions
  | .loop hb => exact hb.functions
  | .block hb => exact hb.functions
  | .function hl hb => exact List.rel_append hb.functions (.cons ⟨hl, rfl, rfl, hb⟩ .nil)

theorem Block.Relabels.functions {p p' : Block} (h : p.Relabels F p') :
    List.Forall₂ (Declared F) p.functions p'.functions := by
  match h with
  | .nil => exact .nil
  | .cons hs hr => exact List.rel_append hs.functions hr.functions

end

theorem Zipped.append {fs fs' gs gs' : List (Handle × Routine)} (hlen : fs.length = fs'.length)
    (h : ∀ a b, Zipped (fs ++ gs) (fs' ++ gs') a b → G a b) :
    (∀ a b, Zipped fs fs' a b → G a b) ∧ ∀ a b, Zipped gs gs' a b → G a b := by
  simp only [Zipped, List.zip_append hlen, List.mem_append] at h
  exact ⟨fun a b ⟨r, r', hr⟩ => h a b ⟨r, r', .inl hr⟩, fun a b ⟨r, r', hr⟩ => h a b ⟨r, r', .inr hr⟩⟩

mutual

/-- What is asked of the handles matters for the functions that are there. -/
theorem Stmt.Relabels.change {s s' : Stmt} (h : s.Relabels F s')
    (hG : ∀ a b, Zipped s.functions s'.functions a b → G a b) : s.Relabels G s' := by
  match h with
  | .expression => exact .expression
  | .print => exact .print
  | .ret => exact .ret
  | .var => exact .var
  | .cond hy hn =>
      obtain ⟨hyes, hno⟩ := Zipped.append hy.functions.length_eq hG
      exact .cond (hy.change hyes) (hn.change hno)
  | .loop hb => exact .loop (hb.change hG)
  | .block hb => exact .block (hb.change hG)
  | .function _ hb =>
      obtain ⟨hbody, hlast⟩ := Zipped.append hb.functions.length_eq hG
      exact .function (hlast _ _ ⟨_, _, List.mem_singleton_self _⟩) (hb.change hbody)

theorem Block.Relabels.change {p p' : Block} (h : p.Relabels F p')
    (hG : ∀ a b, Zipped p.functions p'.functions a b → G a b) : p.Relabels G p' := by
  match h with
  | .nil => exact .nil
  | .cons hs hr =>
      obtain ⟨hfirst, hrest⟩ := Zipped.append hs.functions.length_eq hG
      exact .cons (hs.change hfirst) (hr.change hrest)

end

theorem Routine.Relabels.mono {r r' : Routine} (h : r.Relabels F r') (hFG : ∀ a b, F a b → G a b) :
    r.Relabels G r' := by
  refine ⟨h.name, h.params, h.body.change fun a b ⟨r, r', hr⟩ => hFG a b ?_⟩
  exact (List.forall₂_zip h.body.functions hr).1

theorem functions_append (p q : Block) : (p.append q).functions = p.functions ++ q.functions := by
  match p with
  | .nil => rfl
  | .cons s rest => rw [Block.append, Block.functions, Block.functions, functions_append rest q, List.append_assoc]

mutual

/-- Nothing changes if the handles stay the same. -/
theorem Stmt.relabels_self (s : Stmt) (hF : ∀ e ∈ s.functions, F e.1 e.1) : s.Relabels F s := by
  match s with
  | .expression _ => exact .expression
  | .print _ => exact .print
  | .ret _ => exact .ret
  | .var _ _ => exact .var
  | .cond _ yes no =>
      obtain ⟨hyes, hno⟩ := List.forall_mem_append.mp hF
      exact .cond (yes.relabels_self hyes) (no.relabels_self hno)
  | .loop _ _ body => exact .loop (body.relabels_self hF)
  | .block body => exact .block (body.relabels_self hF)
  | .function _ _ _ body =>
      obtain ⟨hbody, hlast⟩ := List.forall_mem_append.mp hF
      exact .function (hlast _ (List.mem_singleton_self _)) (body.relabels_self hbody)

theorem Block.relabels_self (p : Block) (hF : ∀ e ∈ p.functions, F e.1 e.1) : p.Relabels F p := by
  match p with
  | .nil => exact .nil
  | .cons s rest =>
      obtain ⟨hfirst, hrest⟩ := List.forall_mem_append.mp hF
      exact .cons (s.relabels_self hfirst) (rest.relabels_self hrest)

end

end Functions

end Lox
