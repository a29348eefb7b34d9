import Lox.Compile.Scope

/-! The compiler's variables through any history of scopes. The compiler keeps one list for all scopes and tells them
apart by depths: it looks for a name in the innermost scope, and drops that scope, by going through the list until the
depth changes. That this is right rests on the order of the list. The list is measured against a book that has a page
for each open scope, with what has been declared in it; after every history the list is what the book says, and so is
every answer that is read off it. Histories are read from the latest action back. -/

namespace Lox.Scope

/-- What is done to the variables of a function. -/
inductive Action where
  | enter
  | declare (name : String)
  | mark
  | leave
  deriving DecidableEq

/-- The variables after an action. A declaration that fails changes nothing. -/
def perform (s : Scope) : Action → Scope
  | .enter => s.enter
  | .declare name => (s.declare name).toOption.getD s
  | .mark => s.markInitialized
  | .leave => (s.leave?.map (·.1)).getD s

/-- The variables of a new function after a history, the latest action first. -/
def after : List Action → Scope
  | [] => start
  | latest :: earlier => (after earlier).perform latest

/-- The number of scopes that a history leaves open. -/
def level : List Action → Nat
  | [] => 0
  | .enter :: earlier => level earlier + 1
  | .leave :: earlier => level earlier - 1
  | .declare _ :: earlier | .mark :: earlier => level earlier

/-- No scope is left that has not been entered, and nothing is declared outside of all scopes. -/
def Legal : List Action → Prop
  | [] => True
  | .declare _ :: earlier | .leave :: earlier => 0 < level earlier ∧ Legal earlier
  | .enter :: earlier | .mark :: earlier => Legal earlier

/-- What happens inside of one scope: declarations, marks, and whole scopes. -/
inductive Inside : List Action → Prop where
  | nil : Inside []
  | declare (name : String) {earlier : List Action} (h : Inside earlier) : Inside (.declare name :: earlier)
  | mark {earlier : List Action} (h : Inside earlier) : Inside (.mark :: earlier)
  | scope {inner earlier : List Action} (hi : Inside inner) (h : Inside earlier) :
      Inside (.leave :: (inner ++ .enter :: earlier))

/-! ### The book -/

/-- A declaration of a name in a scope that is still open. -/
structure Declaration where
  name : String
  /-- Whether its initializer is done. -/
  ready : Bool
  deriving DecidableEq

/-- A declaration is noted in the innermost scope, unless there is no room for it or the scope has one of the name. The
callee takes one place of those that there are. -/
def note (name : String) : List (List Declaration) → List (List Declaration)
  | [] => []
  | scope :: outer =>
    if maxLocals ≤ (scope :: outer).flatten.length + 1 ∨ name ∈ scope.map (·.name) then scope :: outer
    else (⟨name, false⟩ :: scope) :: outer

/-- The latest declaration of all is ready. -/
def markLatest : List (List Declaration) → List (List Declaration)
  | [] => []
  | [] :: outer => [] :: markLatest outer
  | (latest :: others) :: outer => ({ latest with ready := true } :: others) :: outer

/-- The scopes that a history leaves open, the innermost first, each with its declarations, the latest first. -/
def booked : List Action → List (List Declaration)
  | [] => []
  | .enter :: earlier => [] :: booked earlier
  | .declare name :: earlier => note name (booked earlier)
  | .mark :: earlier => markLatest (booked earlier)
  | .leave :: earlier => (booked earlier).tail

/-- The variables that a book stands for. -/
def entries : List (List Declaration) → List Local
  | [] => [callee]
  | scope :: outer =>
    scope.map (fun d => { name := d.name, depth := outer.length + 1, initialized := d.ready }) ++ entries outer

/-- The state of the compiler that a book stands for. -/
def shown (book : List (List Declaration)) : Scope := { locals := entries book, depth := book.length }

/-- A variable without its depth. -/
def noted (l : Local) : Declaration := ⟨l.name, l.initialized⟩

variable {book outer : List (List Declaration)} {scope : List Declaration} {name : String}

theorem map_noted_entries (book : List (List Declaration)) :
    (entries book).map noted = book.flatten ++ [⟨"", true⟩] := by
  induction book with
  | nil => rfl
  | cons scope outer ih =>
      rw [entries, List.map_append, ih, List.map_map, List.flatten_cons, List.append_assoc]
      congr 1
      exact List.map_id scope

theorem length_entries (book : List (List Declaration)) : (entries book).length = book.flatten.length + 1 := by
  have h := congrArg List.length (map_noted_entries book)
  simpa using h

theorem depth_le_of_mem_entries : ∀ l ∈ entries book, l.depth ≤ book.length := by
  induction book with
  | nil =>
      intro l hl
      obtain rfl := List.mem_singleton.mp hl
      exact Nat.le_refl _
  | cons scope outer ih =>
      intro l hl
      rw [entries, List.mem_append, List.mem_map] at hl
      rcases hl with ⟨d, -, rfl⟩ | hl
      · exact Nat.le_refl _
      · exact Nat.le_succ_of_le (ih l hl)

theorem getLast?_entries (book : List (List Declaration)) : (entries book).getLast? = some callee := by
  induction book with
  | nil => rfl
  | cons scope outer ih => rw [entries, List.getLast?_append, ih, Option.some_or]

theorem pairwise_depth (book : List (List Declaration)) :
    (entries book).Pairwise fun later earlier => earlier.depth ≤ later.depth := by
  induction book with
  | nil => exact List.pairwise_singleton _ _
  | cons scope outer ih =>
      rw [entries, List.pairwise_append]
      refine ⟨?_, ih, ?_⟩
      · rw [List.pairwise_map]
        exact List.pairwise_of_forall fun _ _ => Nat.le_refl _
      · intro later hlater earlier hearlier
        obtain ⟨d, -, rfl⟩ := List.mem_map.mp hlater
        exact Nat.le_succ_of_le (depth_le_of_mem_entries earlier hearlier)

/-- No scope declares a name twice. -/
def Single (book : List (List Declaration)) : Prop := ∀ scope ∈ book, (scope.map (·.name)).Nodup

theorem Single.pairwise_name (h : Single book) :
    (entries book).Pairwise fun later earlier => later.depth = earlier.depth → later.name ≠ earlier.name := by
  induction book with
  | nil => exact List.pairwise_singleton _ _
  | cons scope outer ih =>
      rw [entries, List.pairwise_append]
      refine ⟨?_, ih fun s hs => h s (List.mem_cons_of_mem _ hs), ?_⟩
      · rw [List.pairwise_map]
        have hscope := h scope List.mem_cons_self
        rw [List.Nodup, List.pairwise_map] at hscope
        refine hscope.imp ?_
        intro later earlier hne _
        exact hne
      · intro later hlater earlier hearlier heq
        obtain ⟨d, -, rfl⟩ := List.mem_map.mp hlater
        have := depth_le_of_mem_entries earlier hearlier
        simp only at heq
        omega

/-! ### What the compiler reads off its list -/

/-- The variables that come before the depth changes are those of the innermost scope. -/
theorem span_entries (scope : List Declaration) (outer : List (List Declaration)) :
    (entries (scope :: outer)).takeWhile (fun l => outer.length + 1 ≤ l.depth) =
        scope.map (fun d => { name := d.name, depth := outer.length + 1, initialized := d.ready }) ∧
      (entries (scope :: outer)).dropWhile (fun l => !outlives outer.length l) = entries outer := by
  obtain ⟨l, rest, hl⟩ := List.exists_cons_of_length_pos
    (Nat.lt_of_lt_of_eq (Nat.succ_pos _) (length_entries outer).symm)
  have hdepth : l.depth ≤ outer.length := depth_le_of_mem_entries l (hl ▸ List.mem_cons_self)
  rw [entries]
  constructor
  · rw [List.takeWhile_append_of_pos (by simp), hl, List.takeWhile_cons_of_neg (by simp; omega), List.append_nil]
  · rw [List.dropWhile_append_of_pos (by simp [outlives]), hl,
      List.dropWhile_cons_of_neg (by simpa [outlives] using hdepth)]

theorem declares_shown (scope : List Declaration) (outer : List (List Declaration)) (name : String) :
    (shown (scope :: outer)).declares name = true ↔ name ∈ scope.map (·.name) := by
  unfold declares shown
  simp only [List.length_cons, (span_entries scope outer).1]
  simp

theorem eq_of_declare {s t : Scope} {name : String} (h : s.declare name = .ok t) :
    t = { s with locals := { name, depth := s.depth, initialized := false } :: s.locals } := by
  unfold declare at h
  split at h
  · cases h
  · split at h
    · cases h
    · cases h
      rfl

/-- A declaration fails if there is no room for it, or else if the innermost scope has the name. -/
theorem declare_shown (scope : List Declaration) (outer : List (List Declaration)) (name : String) :
    (shown (scope :: outer)).declare name =
      if maxLocals ≤ (scope :: outer).flatten.length + 1 then .error .tooManyLocals
      else if name ∈ scope.map (·.name) then .error .alreadyDeclared
      else .ok (shown ((⟨name, false⟩ :: scope) :: outer)) := by
  have hlength : (shown (scope :: outer)).locals.length = (scope :: outer).flatten.length + 1 := length_entries _
  unfold declare
  simp only [hlength, declares_shown]
  rfl

theorem leave?_shown (scope : List Declaration) (outer : List (List Declaration)) :
    (shown (scope :: outer)).leave? = some (shown outer, scope.length) := by
  have hkept : (entries (scope :: outer)).dropWhile (fun l => !outlives outer.length l) = entries outer :=
    (span_entries scope outer).2
  unfold leave? shown
  simp only [List.length_cons, hkept, length_entries, List.flatten_cons, List.length_append]
  rw [show scope.length + outer.flatten.length + 1 - (outer.flatten.length + 1) = scope.length by omega]

/-- Marking makes the flag of the last variable true, and changes nothing else; the callee's flag is true already. -/
theorem entries_markLatest (book : List (List Declaration)) : ∃ latest others, entries book = latest :: others ∧
    entries (markLatest book) = { latest with initialized := true } :: others := by
  induction book with
  | nil => exact ⟨callee, [], rfl, rfl⟩
  | cons scope outer ih =>
      cases scope with
      | nil => exact ih
      | cons latest others => exact ⟨_, _, rfl, rfl⟩

@[simp] theorem length_markLatest (book : List (List Declaration)) : (markLatest book).length = book.length := by
  induction book with
  | nil => rfl
  | cons scope outer ih =>
      cases scope with
      | nil => exact congrArg Nat.succ ih
      | cons latest others => rfl

theorem markInitialized_shown (book : List (List Declaration)) :
    (shown book).markInitialized = shown (markLatest book) := by
  cases book with
  | nil => rfl
  | cons scope outer =>
      obtain ⟨latest, others, hentries, hmarked⟩ := entries_markLatest (scope :: outer)
      unfold markInitialized shown
      simp only [hentries, hmarked, length_markLatest, List.length_cons]

/-! ### Every history -/

@[simp] theorem length_note (name : String) (book : List (List Declaration)) :
    (note name book).length = book.length := by
  cases book with
  | nil => rfl
  | cons scope outer =>
      rw [note]
      split <;> rfl

@[simp] theorem length_booked (history : List Action) : (booked history).length = level history := by
  induction history with
  | nil => rfl
  | cons latest earlier ih => cases latest <;> simp [booked, level, ih]

/-- A scope is open, so the book has a page for it. -/
theorem exists_page {history : List Action} (h : 0 < level history) : ∃ scope outer, booked history = scope :: outer :=
  List.exists_cons_of_length_pos (Nat.lt_of_lt_of_eq h (length_booked history).symm)

theorem perform_declare (scope : List Declaration) (outer : List (List Declaration)) (name : String) :
    (shown (scope :: outer)).perform (.declare name) = shown (note name (scope :: outer)) := by
  rw [perform, declare_shown, note]
  split
  · next hfull => rw [if_pos (.inl hfull)]; rfl
  · next hroom =>
      split
      · next hname => rw [if_pos (.inr hname)]; rfl
      · next hnew => rw [if_neg (not_or.mpr ⟨hroom, hnew⟩)]; rfl

/-- After a legal history the list is what the book says. -/
theorem Legal.after_eq {history : List Action} (h : Legal history) : after history = shown (booked history) := by
  induction history with
  | nil => rfl
  | cons latest earlier ih =>
      cases latest with
      | enter =>
          rw [after, ih h]
          rfl
      | mark =>
          rw [after, ih h]
          exact markInitialized_shown _
      | declare name =>
          obtain ⟨scope, outer, hbook⟩ := exists_page h.1
          rw [after, ih h.2, booked, hbook]
          exact perform_declare scope outer name
      | leave =>
          obtain ⟨scope, outer, hbook⟩ := exists_page h.1
          rw [after, ih h.2, booked, hbook, perform, leave?_shown]
          rfl

theorem Single.tail (h : Single book) : Single book.tail := fun scope hs => h scope (List.mem_of_mem_tail hs)

theorem Single.note (h : Single book) (name : String) : Single (note name book) := by
  cases book with
  | nil => exact h
  | cons scope outer =>
      rw [Scope.note]
      split
      · exact h
      · next hnew =>
          intro s hs
          rcases List.mem_cons.mp hs with rfl | hs
          · exact List.nodup_cons.mpr ⟨fun hmem => hnew (.inr hmem), h scope List.mem_cons_self⟩
          · exact h s (List.mem_cons_of_mem _ hs)

theorem Single.markLatest (h : Single book) : Single (markLatest book) := by
  induction book with
  | nil => exact h
  | cons scope outer ih =>
      cases scope with
      | nil =>
          refine List.forall_mem_cons.mpr ⟨List.nodup_nil, ih fun s hs => h s (List.mem_cons_of_mem _ hs)⟩
      | cons latest others =>
          have hnames : ((latest :: others).map (·.name)).Nodup := h _ List.mem_cons_self
          exact List.forall_mem_cons.mpr ⟨hnames, fun s hs => h s (List.mem_cons_of_mem _ hs)⟩

theorem single_booked (history : List Action) : Single (booked history) := by
  induction history with
  | nil => exact nofun
  | cons latest earlier ih =>
      cases latest with
      | enter => exact List.forall_mem_cons.mpr ⟨List.nodup_nil, ih⟩
      | declare name => exact ih.note name
      | mark => exact ih.markLatest
      | leave => exact ih.tail

theorem length_flatten_markLatest (book : List (List Declaration)) :
    (markLatest book).flatten.length = book.flatten.length := by
  obtain ⟨latest, others, hentries, hmarked⟩ := entries_markLatest book
  have h := length_entries book
  have h' := length_entries (markLatest book)
  rw [hentries] at h
  rw [hmarked] at h'
  simp only [List.length_cons] at h h'
  omega

/-- There is never more in the book than there is room for. -/
theorem length_flatten_booked (history : List Action) : (booked history).flatten.length + 1 ≤ maxLocals := by
  induction history with
  | nil => decide
  | cons latest earlier ih =>
      cases latest with
      | enter => exact ih
      | mark =>
          rw [booked, length_flatten_markLatest]
          exact ih
      | leave =>
          rw [booked]
          cases hbook : booked earlier with
          | nil => decide
          | cons scope outer =>
              rw [hbook, List.flatten_cons, List.length_append] at ih
              rw [List.tail_cons]
              omega
      | declare name =>
          rw [booked]
          cases hbook : booked earlier with
          | nil =>
              rw [note]
              decide
          | cons scope outer =>
              rw [hbook] at ih
              rw [note]
              split
              · exact ih
              · next hnew =>
                  have hroom := not_or.mp hnew
                  simp only [List.flatten_cons, List.cons_append, List.length_cons, List.length_append] at hroom ⊢
                  omega

/-! ### The scope that is left -/

theorem level_inside {inside : List Action} (hi : Inside inside) (before : List Action) :
    level (inside ++ before) = level before := by
  induction hi generalizing before with
  | nil => rfl
  | declare name _ ih | mark _ ih => exact ih before
  | @scope inner earlier _ _ ihi ih =>
      rw [List.cons_append, List.append_assoc, level, ihi, List.cons_append, level, ih]
      rfl

theorem Legal.of_append {inside before : List Action} (h : Legal (inside ++ before)) : Legal before := by
  induction inside with
  | nil => exact h
  | cons latest earlier ih =>
      cases latest with
      | enter | mark => exact ih h
      | declare name | leave => exact ih h.2

/-- If a scope is open, the history has entered it, and has stayed inside of it since. -/
theorem Legal.exists_enter {history : List Action} (h : Legal history) (hopen : 0 < level history) :
    ∃ inside before, history = inside ++ .enter :: before ∧ Inside inside := by
  match history with
  | [] => cases hopen
  | .enter :: before => exact ⟨[], before, rfl, .nil⟩
  | .declare name :: earlier =>
      obtain ⟨inside, before, rfl, hi⟩ := @exists_enter earlier h.2 hopen
      exact ⟨.declare name :: inside, before, rfl, .declare name hi⟩
  | .mark :: earlier =>
      obtain ⟨inside, before, rfl, hi⟩ := @exists_enter earlier h hopen
      exact ⟨.mark :: inside, before, rfl, .mark hi⟩
  | .leave :: earlier =>
      -- the scope left last lies inside of the one that is open, which was entered before it
      obtain ⟨inner, middle, heq, hinner⟩ := @exists_enter earlier h.2 h.1
      have hmiddle : 0 < level middle := by
        rw [level, heq, level_inside hinner, level] at hopen
        exact hopen
      have hlegal : Legal middle := (heq ▸ h.2 : Legal (inner ++ .enter :: middle)).of_append
      have hlt : middle.length < earlier.length := by
        rw [heq, List.length_append, List.length_cons]
        omega
      obtain ⟨inside, before, rfl, hi⟩ := exists_enter hlegal hmiddle
      exact ⟨.leave :: (inner ++ .enter :: inside), before, by rw [heq]; simp, .scope hinner hi⟩
termination_by history.length

theorem markLatest_twice (book : List (List Declaration)) : markLatest (markLatest book) = markLatest book := by
  induction book with
  | nil => rfl
  | cons scope outer ih =>
      cases scope with
      | nil => exact congrArg ([] :: ·) ih
      | cons latest others => rfl

theorem markLatest_of_marked {book book' : List (List Declaration)} (h : book' = book ∨ book' = markLatest book) :
    markLatest book' = markLatest book := by
  rcases h with rfl | rfl
  · rfl
  · exact markLatest_twice book

/-- Inside of a scope, nothing happens to the scopes around it but that their latest declaration may be marked. -/
theorem booked_inside {inside : List Action} (hi : Inside inside) {before : List Action}
    (hbook : booked before = scope :: outer) : ∃ scope' outer', booked (inside ++ before) = scope' :: outer' ∧
      (outer' = outer ∨ outer' = markLatest outer) := by
  induction hi generalizing before scope outer with
  | nil => exact ⟨scope, outer, hbook, .inl rfl⟩
  | @declare name earlier _ ih =>
      obtain ⟨scope', outer', hsince, houter⟩ := ih hbook
      rw [List.cons_append, booked, hsince, note]
      split
      · exact ⟨_, _, rfl, houter⟩
      · exact ⟨_, _, rfl, houter⟩
  | mark _ ih =>
      obtain ⟨scope', outer', hsince, houter⟩ := ih hbook
      rw [List.cons_append, booked, hsince]
      cases scope' with
      | cons latest others => exact ⟨_, _, rfl, houter⟩
      | nil => exact ⟨_, _, rfl, .inr (markLatest_of_marked houter)⟩
  | @scope inner earlier _ _ ihi ih =>
      obtain ⟨scope₁, outer₁, hsince, houter⟩ := ih hbook
      have hentered : booked (.enter :: (earlier ++ before)) = [] :: scope₁ :: outer₁ := by rw [booked, hsince]
      obtain ⟨scope₂, outer₂, hinner, hmarked⟩ := ihi hentered
      rw [List.cons_append, List.append_assoc, List.cons_append, booked, hinner, List.tail_cons]
      rcases hmarked with rfl | rfl
      · exact ⟨_, _, rfl, houter⟩
      · cases scope₁ with
        | cons latest others => exact ⟨_, _, rfl, houter⟩
        | nil => exact ⟨_, _, rfl, .inr (markLatest_of_marked houter)⟩

/-- The number of declarations in a history that did not fail. -/
def additions : List Action → Nat
  | [] => 0
  | .declare name :: earlier => additions earlier + if ((after earlier).declare name).isOk then 1 else 0
  | .enter :: earlier | .mark :: earlier | .leave :: earlier => additions earlier

/-- The number of variables that the scopes left in a history have taken along. -/
def removals : List Action → Nat
  | [] => 0
  | .leave :: earlier => removals earlier + ((after earlier).leave?.map (·.2)).getD 0
  | .enter :: earlier | .declare _ :: earlier | .mark :: earlier => removals earlier

/-- What was declared, and the callee, is in the list until it is dropped. -/
theorem Legal.balance {history : List Action} (h : Legal history) :
    (after history).locals.length + removals history = additions history + 1 := by
  induction history with
  | nil => rfl
  | cons latest earlier ih =>
      cases latest with
      | enter => exact ih h
      | mark =>
          have hlength : (after (.mark :: earlier)).locals.length = (after earlier).locals.length := by
            have heq := h.after_eq
            rw [heq, @Legal.after_eq earlier h]
            simp only [shown, length_entries, booked, length_flatten_markLatest]
          rw [hlength]
          exact ih h
      | declare name =>
          have hbefore := ih h.2
          obtain ⟨scope, outer, hbook⟩ := exists_page h.1
          rw [after, additions, removals, perform]
          cases hdeclare : (after earlier).declare name with
          | error cause =>
              simp only [Except.isOk, Except.toBool, Except.toOption, Option.getD_none, Bool.false_eq_true, if_false]
              exact hbefore
          | ok s =>
              have hadded : s.locals.length = (after earlier).locals.length + 1 := by
                rw [eq_of_declare hdeclare, List.length_cons]
              simp only [Except.isOk, Except.toBool, Except.toOption, Option.getD_some, if_true]
              omega
      | leave =>
          have hbefore := ih h.2
          obtain ⟨scope, outer, hbook⟩ := exists_page h.1
          rw [h.2.after_eq, hbook] at hbefore
          rw [after, additions, removals, h.2.after_eq, hbook, perform, leave?_shown]
          simp only [shown, length_entries, List.flatten_cons, List.length_append, Option.map_some, Option.getD_some]
            at hbefore ⊢
          omega

/-! ### Names -/

theorem resolveIn_of_noted {locals : List Local} {later earlier : List Declaration} {d : Declaration}
    (h : locals.map noted = later ++ d :: earlier) (hlater : ∀ e ∈ later, e.name ≠ name) (hd : d.name = name) :
    resolveIn name locals = if d.ready then .ok (some earlier.length) else .error .readInOwnInitializer := by
  induction later generalizing locals with
  | nil =>
      obtain ⟨l, rest, rfl, rfl, hrest⟩ := List.map_eq_cons_iff.mp h
      have hname : l.name = name := hd
      rw [resolveIn, if_pos hname, ← hrest, List.length_map]
      rfl
  | cons e later ih =>
      obtain ⟨l, rest, rfl, rfl, hrest⟩ := List.map_eq_cons_iff.mp h
      have hname : l.name ≠ name := hlater _ List.mem_cons_self
      rw [resolveIn, if_neg hname]
      exact ih hrest fun e he => hlater e (List.mem_cons_of_mem _ he)

theorem resolveIn_eq_none_iff {locals : List Local} :
    resolveIn name locals = .ok none ↔ ∀ d ∈ locals.map noted, d.name ≠ name := by
  induction locals with
  | nil => simp [resolveIn]
  | cons l earlier ih =>
      rw [resolveIn, List.map_cons, List.forall_mem_cons, ← ih]
      by_cases hl : l.name = name
      · rw [if_pos hl]
        refine iff_of_false (fun h => ?_) fun h => h.1 hl
        split at h <;> cases h
      · rw [if_neg hl]
        exact ⟨fun h => ⟨hl, h⟩, And.right⟩

/-! ### The bookkeeping -/

/-- The list of variables after a history is in order, and so is what the compiler reads off it. -/
structure Bookkept (history : List Action) : Prop where
  /-- The list is the declarations that are still open, and the callee in the first slot. -/
  shows : (after history).locals.map noted = (booked history).flatten ++ [⟨"", true⟩]
  reserved : (after history).locals.getLast? = some callee
  few : (after history).locals.length ≤ 256
  /-- Depths do not decrease from the first slot on, and are at most that of the innermost scope. -/
  ordered : (after history).locals.Pairwise fun later earlier => earlier.depth ≤ later.depth
  below : ∀ l ∈ (after history).locals, l.depth ≤ (after history).depth
  depth_eq : (after history).depth = level history
  /-- No two variables of one scope have the same name. -/
  distinct : (after history).locals.Pairwise fun later earlier => later.depth = earlier.depth →
    later.name ≠ earlier.name
  /-- The innermost scope can be left, and what is left is the list as it was when the scope was entered, but that its
  last variable may have been marked since. The variables dropped are those added since then, except for those that
  scopes inside of this one have taken along. -/
  leaves : 0 < level history → ∃ inside before s count, history = inside ++ .enter :: before ∧ Inside inside ∧
    (after history).leave? = some (s, count) ∧ s.depth = (after before).depth ∧
    (s.locals = (after before).locals ∨ ∃ latest others, (after before).locals = latest :: others ∧
      s.locals = { latest with initialized := true } :: others) ∧
    (after history).locals.length = (after before).locals.length + count ∧
    additions history + removals before = additions before + removals history + count
  /-- A declaration fails if there is no room for it, or else if the innermost scope has one of the name. -/
  full : ∀ name, 0 < level history →
    ((after history).declare name = .error .tooManyLocals ↔ (after history).locals.length = 256)
  refused : ∀ name scope outer, booked history = scope :: outer → (after history).locals.length < 256 →
    ((after history).declare name = .error .alreadyDeclared ↔ name ∈ scope.map (·.name))
  unchanged : ∀ name cause, (after history).declare name = .error cause →
    after (.declare name :: history) = after history
  declared : ∀ name s, (after history).declare name = .ok s → after (.declare name :: history) = s ∧
    s.depth = (after history).depth ∧
    s.locals = { name, depth := (after history).depth, initialized := false } :: (after history).locals
  /-- A name denotes the latest open declaration of it, in the slot behind those of the declarations before it. -/
  found : ∀ name later d earlier, (booked history).flatten = later ++ d :: earlier → (∀ e ∈ later, e.name ≠ name) →
    d.name = name → earlier.length + 1 < 256 ∧
      (after history).resolve name = if d.ready then .ok (some (earlier.length + 1)) else .error .readInOwnInitializer
  missing : ∀ name, name ≠ "" →
    ((after history).resolve name = .ok none ↔ ∀ d ∈ (booked history).flatten, d.name ≠ name)

namespace Legal

variable {history : List Action} (h : Legal history)

include h

theorem length_locals : (after history).locals.length = (booked history).flatten.length + 1 := by
  rw [h.after_eq]
  exact length_entries _

/-- Leaving the innermost scope goes back to where it was entered. -/
theorem leaves (hopen : 0 < level history) : ∃ inside before s count,
    history = inside ++ .enter :: before ∧ Inside inside ∧
    (after history).leave? = some (s, count) ∧ s.depth = (after before).depth ∧
    (s.locals = (after before).locals ∨ ∃ latest others, (after before).locals = latest :: others ∧
      s.locals = { latest with initialized := true } :: others) ∧
    (after history).locals.length = (after before).locals.length + count ∧
    additions history + removals before = additions before + removals history + count := by
  obtain ⟨inside, before, rfl, hi⟩ := h.exists_enter hopen
  have hbefore : Legal before := @Legal.of_append [.enter] before h.of_append
  have hentered : booked (.enter :: before) = [] :: booked before := rfl
  obtain ⟨scope, outer, hsince, houter⟩ := booked_inside hi hentered
  obtain ⟨latest, others, hentries, hmarked⟩ := entries_markLatest (booked before)
  have hlength : outer.length = (booked before).length ∧ outer.flatten.length = (booked before).flatten.length := by
    rcases houter with rfl | rfl
    · exact ⟨rfl, rfl⟩
    · exact ⟨length_markLatest _, length_flatten_markLatest _⟩
  have hgrown : (after (inside ++ .enter :: before)).locals.length = (after before).locals.length + scope.length := by
    rw [h.length_locals, hbefore.length_locals, hsince, List.flatten_cons, List.length_append]
    omega
  have hbalance := h.balance
  have hbalance' := hbefore.balance
  refine ⟨inside, before, shown outer, scope.length, rfl, hi, ?_, ?_, ?_, hgrown, by omega⟩
  · rw [h.after_eq, hsince]
    exact leave?_shown scope outer
  · rw [hbefore.after_eq]
    exact hlength.1
  · rw [hbefore.after_eq]
    rcases houter with rfl | rfl
    · exact .inl rfl
    · exact .inr ⟨latest, others, hentries, hmarked⟩

theorem full (name : String) (hopen : 0 < level history) :
    (after history).declare name = .error .tooManyLocals ↔ (after history).locals.length = 256 := by
  obtain ⟨scope, outer, hbook⟩ := exists_page hopen
  have hroom := length_flatten_booked history
  have hmax : maxLocals = 256 := rfl
  rw [h.length_locals, h.after_eq, hbook, declare_shown, ← hbook]
  split
  · next hfull => exact iff_of_true rfl (by omega)
  · next hroom =>
      refine iff_of_false (fun heq => ?_) (by omega)
      split at heq <;> cases heq

theorem refused (name : String) {scope : List Declaration} {outer : List (List Declaration)}
    (hbook : booked history = scope :: outer) (hroom : (after history).locals.length < 256) :
    (after history).declare name = .error .alreadyDeclared ↔ name ∈ scope.map (·.name) := by
  have hmax : maxLocals = 256 := rfl
  rw [h.length_locals] at hroom
  rw [h.after_eq, hbook, declare_shown, ← hbook, if_neg (by omega)]
  split
  · next hname => exact iff_of_true rfl hname
  · next hnew => exact iff_of_false nofun hnew

theorem found {name : String} {later earlier : List Declaration} {d : Declaration}
    (hbook : (booked history).flatten = later ++ d :: earlier) (hlater : ∀ e ∈ later, e.name ≠ name)
    (hd : d.name = name) :
    earlier.length + 1 < 256 ∧
      (after history).resolve name = if d.ready then .ok (some (earlier.length + 1)) else
      .error .readInOwnInitializer := by
  have hroom := length_flatten_booked history
  have hmax : maxLocals = 256 := rfl
  have hnoted : (entries (booked history)).map noted = later ++ d :: (earlier ++ [⟨"", true⟩]) := by
    rw [map_noted_entries, hbook, List.append_assoc, List.cons_append]
  rw [hbook, List.length_append, List.length_cons] at hroom
  refine ⟨by omega, ?_⟩
  rw [h.after_eq, resolve, shown, resolveIn_of_noted hnoted hlater hd, List.length_append]
  rfl

theorem missing {name : String} (hne : name ≠ "") :
    (after history).resolve name = .ok none ↔ ∀ d ∈ (booked history).flatten, d.name ≠ name := by
  rw [h.after_eq, resolve, shown, resolveIn_eq_none_iff, map_noted_entries, List.forall_mem_append,
    List.forall_mem_singleton]
  exact and_iff_left fun heq => hne heq.symm

end Legal

/-- **Scopes.** However scopes are entered and left, and variables declared and marked in them, on the list of a new
function, the bookkeeping is right. -/
theorem Legal.bookkept {history : List Action} (h : Legal history) : Bookkept history where
  shows := by
    rw [h.after_eq]
    exact map_noted_entries _
  reserved := by
    rw [h.after_eq]
    exact getLast?_entries _
  few := by
    rw [h.length_locals]
    exact length_flatten_booked history
  ordered := by
    rw [h.after_eq]
    exact pairwise_depth _
  below := by
    rw [h.after_eq]
    exact depth_le_of_mem_entries
  depth_eq := by
    rw [h.after_eq]
    exact length_booked history
  distinct := by
    rw [h.after_eq]
    exact (single_booked history).pairwise_name
  leaves := h.leaves
  full := h.full
  refused name _ _ hbook hroom := h.refused name hbook hroom
  unchanged name cause hdeclare := by rw [after, perform, hdeclare]; rfl
  declared name s hdeclare := by
    refine ⟨by rw [after, perform, hdeclare]; rfl, ?_⟩
    rw [eq_of_declare hdeclare]
    exact ⟨rfl, rfl⟩
  found _ _ _ _ := h.found
  missing _ := h.missing

/-- A name is declared twice, in a scope and in a scope inside of it that has been left since. It denotes the outer
variable again, and may not be declared next to it. -/
theorem bookkept_after_shadowing :
    Legal [.leave, .mark, .declare "a", .enter, .mark, .declare "a", .enter] ∧
      (after [.leave, .mark, .declare "a", .enter, .mark, .declare "a", .enter]).resolve "a" = .ok (some 1) ∧
      (after [.leave, .mark, .declare "a", .enter, .mark, .declare "a", .enter]).declare "a" =
      .error .alreadyDeclared := by
  have hlegal : Legal [.leave, .mark, .declare "a", .enter, .mark, .declare "a", .enter] := by simp [Legal, level]
  have h := Legal.bookkept hlegal
  have hbook : booked [.leave, .mark, .declare "a", .enter, .mark, .declare "a", .enter] = [[⟨"a", true⟩]] := by decide
  exact ⟨hlegal, (h.found "a" [] ⟨"a", true⟩ [] (by rw [hbook]; rfl) nofun rfl).2,
    (h.refused "a" _ _ hbook (by decide)).mpr (List.mem_singleton_self _)⟩

end Lox.Scope
