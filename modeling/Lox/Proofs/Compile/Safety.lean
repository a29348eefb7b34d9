import Lox.Proofs.Compile.Total
import Lox.Proofs.Token.Bytes

/-! Compiling goes wrong for no source. The scanner cuts its lexemes out between characters, a string has quotes to
be stripped, and from the first token to the last every step of the compiler finds its guard met, whatever it has
complained about before. -/

namespace Lox

/-- The quotes of a string are the first and the last of its bytes. -/
theorem slice_quoted {lexeme : String} {chars : List Char} (h : lexeme.toList = '"' :: (chars ++ ['"'])) :
    Text.slice lexeme.toUTF8.data.toList 1 (lexeme.toUTF8.data.toList.length - 1) = .ok (String.ofList chars) := by
  have hquote : Text.encode ['"'] = [34] := rfl
  have hcut := Text.slice_encode ['"'] chars ['"']
  rw [Text.toList_toUTF8, h]
  have hbytes : Text.encode ('"' :: (chars ++ ['"'])) = Text.encode (['"'] ++ chars ++ ['"']) := by
    rw [List.append_assoc]
    rfl
  have hlen : (Text.encode ('"' :: (chars ++ ['"']))).length - 1 = (Text.encode (['"'] ++ chars)).length := by
    rw [hbytes, Text.encode_append, List.length_append, hquote]
    rfl
  rw [hlen, hbytes]
  exact hcut

namespace CompileState

/-- A move whose guard is met lets the heap grow. -/
theorem Guarded.grows {s t : CompileState} {p q : Pending} (m : s.Guarded p t q) : s.heap.Grows t.heap := by
  cases m with
  | advance =>
      rw [CompileState.advance, pull_heap]
      exact .refl _
  | complain token c =>
      rw [heap_complainAt]
      exact .refl _
  | giveUp =>
      rw [CompileState.complain, heap_complainAt]
      exact .refl _
  | text chars =>
      rw [(heap_intern chars s).1]
      exact Heap.grows_intern _ _
  | closed =>
      rw [heap_closeFunction]
      exact Heap.grows_allocate _ fun _ h => by cases h
  | calm | op | opByte | opWord | jump | patch | back | enter | leave | mark | declare | parameter | constant |
    opened => exact .refl _

theorem GuardedMoves.grows {s t : CompileState} {p q : Pending} (h : GuardedMoves s p t q) : s.heap.Grows t.heap := by
  induction h with
  | refl => exact .refl _
  | step _ m ih => exact ih.trans m.grows

end CompileState

open CompileState in
/-- **Compiling never faults.** Whatever the source is, the bytes of every lexeme lie between characters, and so do
those between the quotes of a string. The compiler comes to a result by moves whose guards are met: forward jumps have
their placeholders in the code that is patched, scopes that are left were entered, functions that end have one around
them, and counters and slots fit one byte. No source is refused for a number, and a heap whose strings are interned
stays so. -/
theorem compile_never_faults (source : String) (heap : Heap) (printCode : Bool) (journal : Journal) :
    (∃ us last, tokenize source = us ++ [last] ∧ last.kind = .eof ∧
      ∀ count, (Scanner.ofSource source).scan count = .ok ((us ++ List.replicate count last).take count)) ∧
    (∀ t ∈ tokenize source, t.kind = .string → ∃ chars, Compiler.unquote? t.lexeme = some chars ∧
      Text.slice t.lexeme.toUTF8.data.toList 1 (t.lexeme.toUTF8.data.toList.length - 1) = .ok chars) ∧
    ∃ s, compile source heap printCode journal = .ok s.finish ∧
      GuardedMoves (.initial source heap printCode journal) {} s {} ∧
      (∀ t p, GuardedMoves (.initial source heap printCode journal) {} t p → t.Guard p ∧
        (∀ b ∈ t.body :: t.enclosing, ∀ name slot, b.scope.resolve name = .ok (some slot) → slot < 256) ∧
        (heap.Interned → t.heap.Interned)) ∧
      ∀ e, s.finish.result = .error e → ∀ d ∈ e.diagnostics, d.message ≠ "Invalid number literal." := by
  refine ⟨Scanner.scan_ofSource source, fun t ht hstring => ?_, ?_⟩
  · obtain ⟨us, last, htok, hlast, hproper⟩ := tokenize_spec source
    rw [htok, List.mem_append, List.mem_singleton] at ht
    have hmem : t ∈ us := ht.resolve_right fun heq => absurd hlast (by rw [← heq, hstring]; decide)
    obtain ⟨chars, hchars⟩ := (hproper t hmem).quoted hstring
    exact ⟨_, Compiler.unquote?_of_quoted hchars, slice_quoted hchars⟩
  · obtain ⟨s, hrun, hs⟩ := Compiler.ends_script source heap printCode journal (budget_enough _)
    refine ⟨s, compile_of_script hrun, hs.path, fun t p h => ?_, fun e he d hd => ?_⟩
    · have hguard := h.guard (guard_initial source heap printCode journal)
      refine ⟨hguard, fun b hb name slot hslot => ?_, h.grows.interned⟩
      exact Nat.lt_of_lt_of_le (Compiler.slot_lt hslot) (hguard.bounded b hb).locals
    · unfold CompileState.finish at he
      split at he
      · cases he
      · cases he
        exact hs.numerate d (List.mem_reverse.mp hd)

end Lox
