import Lox.Proofs.Discipline.Hosts
import Lox.Proofs.Twins.Lockstep

/-! Two runs of code that was compiled apart. What goes together is given by functions of two stages whose trees are
the same but for handles, and by one piece of the code of each script. Machines that run on such tracks stay side by
side until the scripts come to the end of their pieces. -/

namespace Lox

open Machine

/-- A call does not run past the end of its code. -/
theorem Stage.Poised.offset_lt {S : Stage} {below : List Value} {m : Machine} {k : Handle} {fs : List Frame}
    {own rest : List Value} {p : Spot} {r : Routine} {f : FunctionObject} (hp : S.Poised below m k fs own rest p)
    (hf : Coded S.heap k r f (S.code k)) : p.offset < f.chunk.size := by
  have hin := hf.whole.range.2 p hp.mem
  have hpos := p.instr.size_pos
  unfold Spot.next at hin
  omega

/-- What goes together on two stages: functions, and a piece of the code of each script. -/
structure Track where
  left : Stage
  right : Stage
  twins : Handle → Handle → Prop
  script : Handle
  script' : Handle
  code : List Spot
  stop : Nat
  code' : List Spot
  stop' : Nat
  /-- The number of values up to the script. -/
  hidden : Nat

namespace Track

/-- The same function of the host, on two heaps. -/
def Hosted (h h' : Heap) (k k' : Handle) : Prop := ∃ n, h.native? k = some n ∧ h'.native? k' = some n ∧ n.Uniform

/-- Machines on a track go together function by function and place by place. -/
def pairing (K : Track) : Pairing where
  twins := K.twins
  abreast k x k' x' :=
    (K.twins k k' ∧ ∃ f f', K.left.heap.function? k = some f ∧ K.right.heap.function? k' = some f' ∧
      Along (K.left.code k) f.chunk.size (K.right.code k') f'.chunk.size x x') ∨
    k = K.script ∧ k' = K.script' ∧ Along K.code K.stop K.code' K.stop' x x'
  hidden := K.hidden

/-- The functions that go together are those of the host, or have trees that are the same but for handles; the pieces
of the scripts do the same. -/
structure Fits (K : Track) : Prop where
  unique : Relator.BiUnique K.twins
  functions : ∀ k k', K.twins k k' → Hosted K.left.heap K.right.heap k k' ∨ ∃ r r', K.left.lib.routine k = some r ∧
    K.right.lib.routine k' = some r' ∧ r.Relabels K.twins r'
  scripts : ∃ a a', Parallel K.twins [] a K.code K.stop a' K.code' K.stop'
  leftCode : K.code ⊆ K.left.code K.script
  rightCode : K.code' ⊆ K.right.code K.script'
  rightRoutine : ∃ r, K.right.lib.routine K.script' = some r

/-- The innermost call is one of the script, at the end of its piece. -/
def AtStop (K : Track) (m : Machine) : Prop := ∃ f fs, m.frames = f :: fs ∧ f.function = K.script ∧ f.ip = K.stop

namespace Fits

variable {K : Track} {k k' : Handle} {r r' : Routine} {f f' : FunctionObject} {sp sp' : List Spot} {h h' : Heap}
  {below : List Value} {m m' : Machine}

theorem sameName (hn : NameHolds h f.name r.name) (hn' : NameHolds h' f'.name r'.name) (hr : r.name = r'.name) :
    h.SameName h' f.name f'.name := by
  rw [← hr] at hn'
  generalize f.name = a at hn
  generalize f'.name = b at hn'
  cases hname : r.name with
  | none =>
      rw [hname] at hn hn'
      cases a with
      | some a => exact hn.elim
      | none =>
          cases b with
          | some b => exact hn'.elim
          | none => exact .none
  | some name =>
      rw [hname] at hn hn'
      cases a with
      | none => exact hn.elim
      | some a =>
          cases b with
          | none => exact hn'.elim
          | some b =>
              obtain ⟨s, hs, hchars⟩ := hn
              obtain ⟨t, ht, hchars'⟩ := hn'
              exact .some ⟨s, t, hs, ht, hchars.trans hchars'.symm⟩

/-- Where pieces of code go together that do the same, there are instructions from which the calls go on alike. -/
theorem level_of_along {a a' b b' x x' : Nat} (hcode : Parallel K.twins [] a sp b a' sp' b')
    (hJ : ∀ x x', Along sp b sp' b' x x' → K.pairing.abreast k x k' x') (hsub : sp ⊆ K.left.code k)
    (hsub' : sp' ⊆ K.right.code k') (hr : ∃ r, K.right.lib.routine k' = some r) (hx : Along sp b sp' b' x x') :
    x = b ∨ ∃ p p', K.pairing.Level K.left K.right k k' p p' ∧ p.offset = x ∧ p'.offset = x' := by
  have habreast := (abreast_along b b' hcode.length).mono hJ
  cases hx with
  | exit => exact .inl rfl
  | @spot s s' hs =>
      have hmem := List.of_mem_zip hs
      have hsame := (List.forall₂_iff_zip.mp (hcode.spots _ habreast nofun)).2 hs
      exact .inr ⟨s, s', ⟨hsub hmem.1, hsub' hmem.2, hr, hsame, habreast.next hcode.left hcode.right hs⟩, rfl, rfl⟩

variable (hK : K.Fits)

include hK

/-- Functions that go together are compiled ones, with code that does the same, or of the host. -/
theorem coded (ht : K.twins k k') : Hosted K.left.heap K.right.heap k k' ∨ ∃ r r' f f', r.Relabels K.twins r' ∧
    Coded K.left.heap k r f (K.left.code k) ∧ Coded K.right.heap k' r' f' (K.right.code k') ∧
    (∃ r', K.right.lib.routine k' = some r') ∧
    Parallel K.twins [] 0 (K.left.code k) f.chunk.size 0 (K.right.code k') f'.chunk.size := by
  refine (hK.functions k k' ht).imp_right ?_
  rintro ⟨r, r', hr, hr', hsame⟩
  obtain ⟨f, hf⟩ := K.left.coded k r hr
  obtain ⟨f', hf'⟩ := K.right.coded k' r' hr'
  exact ⟨r, r', f, f', hsame, hf, hf', ⟨r', hr'⟩, hf.laid.parallel hf'.laid hsame hf.whole hf'.whole⟩

theorem links (hk : K.left.heap.Extends h) (hk' : K.right.heap.Extends h') (hi : h.Interned) (hi' : h'.Interned) :
    K.pairing.Links h h' := by
  refine ⟨hi, hi', hK.unique, fun k k' ht => ?_⟩
  rcases hK.coded ht with ⟨n, hn, hn', huniform⟩ | ⟨r, r', f, f', hsame, hf, hf', -, hcode⟩
  · exact .native (hk.native? hn) (hk'.native? hn') huniform
  · have hstart : K.pairing.abreast k 0 k' 0 :=
      .inl ⟨ht, f, f', hf.object, hf'.object, (abreast_along _ _ hcode.length).start hcode.left hcode.right⟩
    have hg := hf.grow hk
    have hg' := hf'.grow hk'
    refine .function hg.object hg'.object ?_ (sameName hg.name hg'.name hsame.name) hstart
    rw [hf.arity, hf'.arity, hsame.params]

/-- **Two tracks.** Machines that run side by side on a track stand at places from which they go on alike, unless the
script is at the end of its piece. -/
theorem levelled (hm : K.pairing.Machines m m') (hr : K.left.Running below m) (hstop : ¬ K.AtStop m) :
    K.pairing.Levelled K.left K.right m m' := by
  intro f fs f' fs' hfs hfs'
  have hframes := hm.frames
  rw [hfs, hfs'] at hframes
  obtain ⟨hf, -⟩ := List.forall₂_cons.mp hframes
  have habreast := hf.abreast
  rcases hf.abreast with ⟨ht, g, g', hg, hg', hx⟩ | ⟨hk, hk', hx⟩
  · rcases hK.coded ht with ⟨n, hn, -⟩ | ⟨r, r', l, l', hsame, hl, hl', hroutine, hcode⟩
    · rw [Heap.function?_eq_some_iff] at hg
      rw [Heap.native?_eq_some_iff, hg] at hn
      cases hn
    · cases hg.symm.trans hl.object
      cases hg'.symm.trans hl'.object
      refine (level_of_along hcode (fun x x' hx => .inl ⟨ht, g, g', hg, hg', hx⟩) (List.Subset.refl _)
        (List.Subset.refl _) hroutine hx).resolve_left fun hend => ?_
      obtain ⟨k, gs, own, rest, p, hp⟩ := hr.poised
      cases hfs.symm.trans hp.frames
      exact absurd hend (Nat.ne_of_lt (hp.offset_lt hl))
  · obtain ⟨a, a', hcode⟩ := hK.scripts
    rw [hk, hk']
    refine (level_of_along hcode (fun x x' hx => .inr ⟨rfl, rfl, hx⟩) hK.leftCode hK.rightCode hK.rightRoutine
      hx).resolve_left fun hend => ?_
    exact hstop ⟨f, fs, hfs, hk, hend⟩

/-- Two scripts that are the only calls begin side by side. -/
theorem begins {a a' base : Nat} (hcode : Parallel K.twins [] a K.code K.stop a' K.code' K.stop')
    (hk : K.left.heap.Extends m.heap) (hk' : K.right.heap.Extends m'.heap) (hs : m.Sound) (hs' : m'.Sound)
    (hf : m.frames = [⟨K.script, a, base⟩]) (hf' : m'.frames = [⟨K.script', a', base⟩]) (hhidden : K.hidden = base + 1)
    (hsize : m.stack.size = base + 1) (hsize' : m'.stack.size = base + 1)
    (hglobals : ∀ name, Option.Rel (K.pairing.Alike m.heap m'.heap) (m.global? name) (m'.global? name))
    (hlast : m.lastValue = .nil) (hlast' : m'.lastValue = .nil) (hlimits : m.limits = m'.limits)
    (hclock : m.clock = m'.clock) (houtput : m.output = m'.output) : K.pairing.Machines m m' where
  left := hs
  right := hs'
  links := hK.links hk hk' hs.heap hs'.heap
  size := hsize.trans hsize'.symm
  stack i hi := by
    have hle : base + 1 ≤ i := hhidden ▸ hi
    rw [Array.getElem?_eq_none (by omega), Array.getElem?_eq_none (by omega)]
    exact .none
  frames := by
    rw [hf, hf']
    refine .cons ⟨.inr ⟨rfl, rfl, (abreast_along _ _ hcode.length).start hcode.left hcode.right⟩, rfl, ?_⟩ .nil
    exact Nat.le_of_eq hhidden
  globals := hglobals
  last := by
    rw [hlast, hlast']
    exact .nil
  limits := hlimits
  clock := hclock
  output := houtput

end Fits

variable {K : Track} {below : List Value} {m m' : Machine}

/-- The script is called from nowhere: no value denotes it but the one at the bottom. -/
theorem alone {fs : List Frame} {own rest : List Value} {p : Spot} (hm : K.pairing.Machines m m')
    (hr : K.left.Running below m) (hp : K.left.Poised below m K.script fs own rest p)
    (hhidden : K.hidden = below.length + 1)
    (hscript : ∃ f, K.left.heap.function? K.script = some f) (hnew : ∀ k', ¬ K.twins K.script k') :
    fs = [] ∧ rest = below := by
  have hframes := hp.frames
  have hwaits := hp.active.waits
  cases hwaits with
  | bottom => exact ⟨rfl, rfl⟩
  | @call _ k' r ip gs own' rest' _ _ _ houter =>
      exfalso
      obtain ⟨l, hl⟩ := hscript
      have hlen := houter.suffix.length_le
      have habove : K.hidden ≤ (own' ++ .object k' :: rest').length := by
        rw [hhidden, List.length_append, List.length_cons]
        omega
      have hvalue := hr.framed.functions _ (hframes ▸ List.mem_cons_self)
      rcases rel_cases (hm.stack _ habove) with ⟨hnone, -⟩ | ⟨v, v', hsome, -, halike⟩
      · rw [hvalue] at hnone
        cases hnone
      · cases hvalue.symm.trans hsome
        cases halike with
        | object h =>
            rcases h with h | ⟨s, t, hs, -⟩
            · exact hnew _ h
            · rw [Heap.string?_eq_some_iff, Heap.function?_eq_some_iff.mp (hr.holds.keeps.function? hl)] at hs
              cases hs

/-! ### Functions that go together -/

theorem biUnique_or {F G : Handle → Handle → Prop} (hF : Relator.BiUnique F) (hG : Relator.BiUnique G)
    (hleft : ∀ a b c, F a b → ¬ G a c) (hright : ∀ a b c, F a c → ¬ G b c) :
    Relator.BiUnique fun a b => F a b ∨ G a b := by
  constructor
  · rintro a b c (hac | hac) (hbc | hbc)
    · exact hF.1 hac hbc
    · exact absurd hbc (hright _ _ _ hac)
    · exact absurd hac (hright _ _ _ hbc)
    · exact hG.1 hac hbc
  · rintro a b c (hab | hab) (hac | hac)
    · exact hF.2 hab hac
    · exact absurd hac (hleft _ _ _ hab)
    · exact absurd hab (hleft _ _ _ hac)
    · exact hG.2 hab hac

theorem biUnique_of_not {F : Handle → Handle → Prop} (hF : ∀ a b, ¬ F a b) : Relator.BiUnique F :=
  ⟨fun a _ c hac => absurd hac (hF a c), fun a b _ hab => absurd hab (hF a b)⟩

theorem biUnique_zipped {fs fs' : List (Handle × Routine)} (hn : (fs.map (·.1)).Nodup) (hn' : (fs'.map (·.1)).Nodup) :
    Relator.BiUnique (Zipped fs fs') := by
  induction fs generalizing fs' with
  | nil =>
      refine biUnique_of_not ?_
      rintro a b ⟨r, r', hr⟩
      cases hr
  | cons e fs ih =>
      cases fs' with
      | nil =>
          refine biUnique_of_not ?_
          rintro a b ⟨r, r', hr⟩
          cases hr
      | cons e' fs' =>
          rw [List.map_cons, List.nodup_cons] at hn hn'
          have hcases : ∀ a b, Zipped (e :: fs) (e' :: fs') a b → a = e.1 ∧ b = e'.1 ∨ Zipped fs fs' a b := by
            rintro a b ⟨r, r', hr⟩
            rw [List.zip_cons_cons, List.mem_cons] at hr
            rcases hr with hr | hr
            · cases hr
              exact .inl ⟨rfl, rfl⟩
            · exact .inr ⟨r, r', hr⟩
          have hmem : ∀ a b, Zipped fs fs' a b → a ∈ fs.map (·.1) ∧ b ∈ fs'.map (·.1) := by
            rintro a b ⟨r, r', hr⟩
            have := List.of_mem_zip hr
            exact ⟨List.mem_map.mpr ⟨_, this.1, rfl⟩, List.mem_map.mpr ⟨_, this.2, rfl⟩⟩
          have hor : Relator.BiUnique fun a b => (a = e.1 ∧ b = e'.1) ∨ Zipped fs fs' a b := by
            refine biUnique_or ⟨?_, ?_⟩ (ih hn.2 hn'.2) ?_ ?_
            · rintro a b c ⟨rfl, -⟩ ⟨rfl, -⟩
              rfl
            · rintro a b c ⟨-, rfl⟩ ⟨-, rfl⟩
              rfl
            · rintro a b c ⟨rfl, -⟩ h
              exact hn.1 (hmem _ _ h).1
            · rintro a b c ⟨-, rfl⟩ h
              exact hn'.1 (hmem _ _ h).2
          exact ⟨fun a b c hac hbc => hor.1 (hcases _ _ hac) (hcases _ _ hbc),
            fun a b c hab hac => hor.2 (hcases _ _ hab) (hcases _ _ hac)⟩

/-- The functions of the host on two heaps, and compiled functions whose trees are the same but for handles, go
together. -/
structure Shares (F : Handle → Handle → Prop) (h h' : Heap) (routine routine' : Handle → Option Routine) : Prop where
  unique : Relator.BiUnique F
  functions : ∀ k k', F k k' → Hosted h h' k k' ∨
    ∃ r r', routine k = some r ∧ routine' k' = some r' ∧ r.Relabels F r'

/-- The functions at equal places of two lists go together, besides others. -/
def Added (F : Handle → Handle → Prop) (fs fs' : List (Handle × Routine)) (a b : Handle) : Prop :=
  F a b ∨ Zipped fs fs' a b

/-- What is there on a machine, apart from strings. -/
def Kept (m : Machine) (routine : Handle → Option Routine) (a b : Handle) : Prop :=
  a = b ∧ ((∃ r, routine a = some r) ∨ ∃ n, m.heap.native? a = some n)

namespace Shares

variable {F : Handle → Handle → Prop} {h h' k k' : Heap} {routine routine' next next' : Handle → Option Routine}

theorem mono (hs : Shares F h h' routine routine') (hk : h.Extends k) (hk' : h'.Extends k')
    (hnext : ∀ a r, routine a = some r → next a = some r) (hnext' : ∀ a r, routine' a = some r → next' a = some r) :
    Shares F k k' next next' := by
  refine ⟨hs.unique, fun a b hab => (hs.functions a b hab).imp ?_ ?_⟩
  · rintro ⟨n, hn, hn', huniform⟩
    exact ⟨n, hk.native? hn, hk'.native? hn', huniform⟩
  · rintro ⟨r, r', hr, hr', hsame⟩
    exact ⟨r, r', hnext a r hr, hnext' b r' hr', hsame⟩

/-- What was there before goes together with itself. -/
theorem kept {m : Machine} (htidy : m.Tidy routine) (huniform : m.UniformHost) :
    Shares (Kept m routine) m.heap m.heap routine routine := by
  refine ⟨⟨?_, ?_⟩, ?_⟩
  · rintro a b c ⟨rfl, -⟩ ⟨rfl, -⟩
    rfl
  · rintro a b c ⟨rfl, -⟩ ⟨rfl, -⟩
    rfl
  · rintro a b ⟨rfl, ⟨r, hr⟩ | ⟨n, hn⟩⟩
    · refine .inr ⟨r, r, hr, hr, rfl, rfl, r.body.relabels_self fun e he => ⟨rfl, .inl ⟨e.2, ?_⟩⟩⟩
      exact htidy.collects.closed a r hr e he
    · exact .inl ⟨n, hn, hn, huniform a n hn⟩

theorem index_lt (hs : Shares F h h' routine routine') (hold : ∀ a r, routine a = some r → a.index < h.cells.size)
    {a b : Handle} (hab : F a b) : a.index < h.cells.size := by
  rcases hs.functions a b hab with ⟨n, hn, -⟩ | ⟨r, r', hr, -⟩
  · exact Heap.lt_size_of_get? (Heap.native?_eq_some_iff.mp hn)
  · exact hold a r hr

/-- The functions that a source makes go together with those of the same tree with other handles. -/
theorem extend {p p' : Block} {script : Handle} (hs : Shares F h h' routine routine')
    (hmakes : h.Makes k (p.routines script)) (hold : ∀ a r, routine a = some r → a.index < h.cells.size)
    (hp : p.Relabels AnyLabels p') (hin : ∀ e ∈ p'.functions, routine' e.1 = some e.2)
    (hnodup : (p'.functions.map (·.1)).Nodup) (hnew : ∀ a b, F a b → b ∉ p'.functions.map (·.1)) :
    Shares (Added F p.functions p'.functions) k h' (addRoutines (p.routines script) routine) routine' ∧
      p.Relabels (Added F p.functions p'.functions) p' := by
  have hrelabels : p.Relabels (Added F p.functions p'.functions) p' := hp.change fun _ _ => .inr
  have hmem : ∀ {a b}, Zipped p.functions p'.functions a b → ∃ r, (a, r) ∈ p.routines script := by
    rintro a b ⟨r, r', hr⟩
    exact ⟨r, List.mem_append_left _ (List.of_mem_zip hr).1⟩
  refine ⟨⟨?_, fun a b hab => ?_⟩, hrelabels⟩
  · have hnames : (p.functions.map (·.1)).Nodup := by
      have := hmakes.nodup
      rw [Block.routines, List.map_append] at this
      exact this.of_append_left
    refine biUnique_or hs.unique (biUnique_zipped hnames hnodup) (fun a b c hab hac => ?_) fun a b c hac hbc => ?_
    · obtain ⟨r, hr⟩ := hmem hac
      have := (hmakes.fresh a r hr).1
      have := hs.index_lt hold hab
      omega
    · obtain ⟨r, r', hr⟩ := hbc
      exact hnew a c hac (List.mem_map.mpr ⟨_, (List.of_mem_zip hr).2, rfl⟩)
  · rcases hab with hab | ⟨r, r', hr⟩
    · refine (hs.functions a b hab).imp ?_ ?_
      · rintro ⟨n, hn, hn', huniform⟩
        exact ⟨n, hmakes.grows.keeps.native? hn, hn', huniform⟩
      · rintro ⟨r, r', hr, hr', hsame⟩
        exact ⟨r, r', (addRoutines_old hmakes (hold a r hr)).trans hr, hr', hsame.mono fun _ _ => .inl⟩
    · have hboth := List.of_mem_zip hr
      exact .inr ⟨r, r', addRoutines_new hmakes (List.mem_append_left _ hboth.1), hin _ hboth.2,
        (List.forall₂_zip hrelabels.functions hr).2⟩

end Shares

end Track

end Lox
