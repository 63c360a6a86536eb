import Sword.Transforms.Module

/-!
# What becomes of a function: `runOnFunction`

Some functions are left alone; the outlined parallel regions (`.omp`) are instrumented in place;
of any other function `f` a clone `f__sword__` is instrumented, and `f` itself gets a new entry
block, which calls the clone if the thread is in a parallel region of level 1 and goes on with
the old entry block otherwise.

* `Func.rewrite`, `Func.dispatcher`, `runOnFunction` — the pass on a function.
* `Program.runPass` — the pass on a program.
* `Program.logs` — the invocations whose accesses the tool is to see.
* `Program.Linked` — the programs a linker accepts.
* `lookup_runPass` — which function has a name after the pass.
-/

namespace Sword
namespace Transforms

/-! ## The pass -/

/-- `StringRef::startswith` -/
def startswith (s pre : String) : Bool := pre.toList.isPrefixOf s.toList

/-- `StringRef::endswith` -/
def endswith (s suf : String) : Bool := suf.toList.isSuffixOf s.toList

/-- The functions that are left alone. -/
def Func.skipped (f : Func) : Bool :=
  f.isCtor ||
  endswith f.name "_dtor" ||
  endswith f.name "__sword__" ||
  endswith f.name "__clang_call_terminate" ||
  endswith f.name "__sword_default_suppressions" ||
  endswith f.name "__sword__get_omp_status" ||
  startswith f.name ".omp.reduction.reduction_func" ||
  f.availableExternally

/-- The functions that are instrumented in place. -/
def Func.inPlace (f : Func) : Bool := startswith f.name ".omp"

/-- `functionName + "__sword__"` -/
def Func.cloneName (f : Func) : String := f.name ++ "__sword__"

/-- An instruction after the pass. -/
def Step.rewrite : Step → Step
  | .instr i => .slot (instrument i)
  | step => step

/-- A block after the pass. -/
def Block.rewrite (b : Block) : Block := { b with code := b.code.map Step.rewrite }

theorem exists_of_mem_rewrite {f : Func} {b : Block}
    (hb : b ∈ f.entry.rewrite :: f.blocks.map Block.rewrite) :
    ∃ b' ∈ f.entry :: f.blocks, b = b'.rewrite := by
  rw [← List.map_cons, List.mem_map] at hb
  obtain ⟨b', hb', rfl⟩ := hb
  exact ⟨b', hb', rfl⟩

/-- The instrumented function, under this name. -/
def Func.rewrite (f : Func) (name : String) : Func :=
  { f with
    name := name
    entry := f.entry.rewrite
    blocks := f.blocks.map Block.rewrite
    targets_lt := by
      intro b hb l hl
      obtain ⟨b', hb', rfl⟩ := exists_of_mem_rewrite hb
      rw [List.length_map]
      exact f.targets_lt b' hb' l hl
    ret_void := by
      intro hvoid b hb v hv
      obtain ⟨b', hb', rfl⟩ := exists_of_mem_rewrite hb
      exact f.ret_void hvoid b' hb' v hv }

/-- The parameters, handed on. -/
def Func.params (f : Func) : List Operand := (List.range f.arity).map Operand.arg

/-- `__sword__if.then`: the block that calls the clone. -/
def Func.thenBlock (f : Func) : Block :=
  ⟨[.call f.cloneName f.params], .ret (if f.returnsVoid then none else some (.result 0))⟩

/-- The new entry block. -/
def Func.testBlock (f : Func) : Block :=
  ⟨[.testStatus], .condBr (.success 0) (f.blocks.length + 1) f.params f.blocks.length f.params⟩

/-- The function with its new entry block; the old one is `__sword__entry`. -/
def Func.dispatcher (f : Func) : Func :=
  { f with
    entry := f.testBlock
    blocks := f.blocks ++ [f.entry, f.thenBlock]
    targets_lt := by
      intro b hb l hl
      rw [List.length_append, List.length_cons, List.length_singleton]
      rcases List.mem_cons.1 hb with rfl | hb
      · simp only [Func.testBlock, Terminator.targets, List.mem_cons, List.not_mem_nil,
          or_false] at hl
        omega
      · rcases List.mem_append.1 hb with hb | hb
        · have := f.targets_lt b (List.mem_cons_of_mem _ hb) l hl
          omega
        · rcases List.mem_cons.1 hb with rfl | hb
          · have := f.targets_lt _ List.mem_cons_self l hl
            omega
          · rw [List.mem_singleton.1 hb] at hl
            cases hl
    ret_void := by
      intro hvoid b hb v hv
      rcases List.mem_cons.1 hb with rfl | hb
      · cases hv
      · rcases List.mem_append.1 hb with hb | hb
        · exact f.ret_void hvoid b (List.mem_cons_of_mem _ hb) v hv
        · rcases List.mem_cons.1 hb with rfl | hb
          · exact f.ret_void hvoid _ List.mem_cons_self v hv
          · rw [List.mem_singleton.1 hb, Func.thenBlock, if_pos hvoid] at hv
            cases hv
            rfl }

/-- `runOnFunction`: what becomes of a function.  Where the entry block has no debug location,
the pass follows a null pointer. -/
def runOnFunction (f : Func) : Option (List Func) :=
  if f.skipped then some [f]
  else if f.name = "main" then some [f]
  else if f.inPlace then some [f.rewrite f.name]
  else if f.entryHasDebugLoc then some [f.dispatcher, f.rewrite f.cloneName]
  else none

/-- The pass on the functions of the unit. -/
def Program.runPass (P : Program) : Option Program := do
  let fs ← P.functions.mapM runOnFunction
  some { P with functions := fs.flatten }

theorem isSuffixOf_append (s t : List Char) : t.isSuffixOf (s ++ t) = true := by
  rw [List.isSuffixOf_iff_suffix]
  exact List.suffix_append s t

/-- The pass comes to the clones too, and leaves them alone. -/
theorem runOnFunction_clone (f : Func) :
    runOnFunction (f.rewrite f.cloneName) = some [f.rewrite f.cloneName] := by
  have hends : endswith (f.rewrite f.cloneName).name "__sword__" = true := by
    show "__sword__".toList.isSuffixOf (f.name ++ "__sword__").toList = true
    rw [String.toList_append]
    exact isSuffixOf_append _ _
  rw [runOnFunction, if_pos]
  simp [Func.skipped, hends]

/-! ## What the tool is to see -/

/-- The function is instrumented, in place or as a clone. -/
def Program.Instrumented (P : Program) (f : Func) : Prop :=
  f ∈ P.functions ∧ f.skipped = false ∧ f.name ≠ "main"

/-- The invocations whose accesses the tool is to see: those of the outlined regions, and those
that a function begins at level 1. -/
def Program.logs (P : Program) (f : Func) (status : Int) : Bool :=
  P.functions.any (fun g => g.name = f.name) && !f.skipped && f.name ≠ "main" &&
    (f.inPlace || status = 1)

/-- The name of the function whose code notes the accesses. -/
def Func.notedBy (f : Func) : String := if f.inPlace then f.name else f.cloneName

/-! ## Programs that are linked -/

/-- The names of all functions. -/
def Program.names (P : Program) : List String := P.all.map Func.name

/-- An instruction as the front end emits it. -/
def Step.Emitted : Step → Prop
  | .slot _ => False
  | .testStatus => False
  | _ => True

/-- The programs that are linked: one function a name, none of them with the name the pass gives
to a clone, and every function that is called is defined. -/
structure Program.Linked (P : Program) : Prop where
  nodup : P.names.Nodup
  clone_new : ∀ f ∈ P.functions, f.cloneName ∉ P.names
  emitted : ∀ f ∈ P.all, ∀ b ∈ f.entry :: f.blocks, ∀ step ∈ b.code, step.Emitted
  defined : ∀ f ∈ P.all, ∀ b ∈ f.entry :: f.blocks, ∀ callee os,
    Step.call callee os ∈ b.code → callee ∈ P.names

/-- The pass keeps the instructions it is applied to. -/
def Program.Kept (P : Program) : Prop :=
  ∀ f, P.Instrumented f → ∀ b ∈ f.entry :: f.blocks, ∀ i, Step.instr i ∈ b.code → i.op.Kept

variable {P T : Program} {f g : Func} {name : String}

theorem lookup_eq_some_iff (hnodup : P.names.Nodup) :
    P.lookup name = some f ↔ f ∈ P.all ∧ f.name = name := by
  unfold Program.names at hnodup
  unfold Program.lookup
  generalize P.all = fs at hnodup ⊢
  induction fs with
  | nil => simp
  | cons g gs ih =>
    rw [List.map_cons, List.nodup_cons] at hnodup
    rw [List.find?_cons]
    by_cases hg : g.name = name
    · simp only [hg, decide_true, Option.some.injEq, List.mem_cons]
      constructor
      · rintro rfl
        exact ⟨Or.inl rfl, hg⟩
      · rintro ⟨rfl | hmem, hf⟩
        · rfl
        · refine absurd ?_ hnodup.1
          rw [hg, ← hf]
          exact List.mem_map_of_mem hmem
    · simp only [hg, decide_false, ih hnodup.2, List.mem_cons]
      refine and_congr_left fun hf => ?_
      refine ⟨Or.inr, fun h => h.resolve_left ?_⟩
      rintro rfl
      exact hg hf

theorem exists_lookup (hnodup : P.names.Nodup) (h : name ∈ P.names) :
    ∃ f, P.lookup name = some f := by
  obtain ⟨f, hf, rfl⟩ := List.mem_map.1 h
  exact ⟨f, (lookup_eq_some_iff hnodup).2 ⟨hf, rfl⟩⟩

theorem cloneName_inj (h : f.cloneName = g.cloneName) : f.name = g.name := by
  have hlist := congrArg String.toList h
  rw [Func.cloneName, Func.cloneName, String.toList_append, String.toList_append] at hlist
  exact String.toList_inj.1 (List.append_cancel_right hlist)

/-! ## The pass on the program -/

/-- The versions of a function after the pass. -/
def versions (f : Func) : List Func := (runOnFunction f).getD []

theorem runPass_eq (h : P.runPass = some T) :
    T = ⟨P.functions.flatMap versions, P.library⟩ ∧
      ∀ f ∈ P.functions, runOnFunction f = some (versions f) := by
  obtain ⟨fs, hfs, hT⟩ := Option.bind_eq_some_iff.1 h
  cases hT
  have hall : ∀ (functions : List Func) (fs : List (List Func)),
      functions.mapM runOnFunction = some fs → fs.flatten = functions.flatMap versions ∧
        ∀ f ∈ functions, runOnFunction f = some (versions f) := by
    intro functions
    induction functions with
    | nil =>
      intro fs hfs
      cases hfs
      exact ⟨rfl, fun f hf => absurd hf List.not_mem_nil⟩
    | cons g functions ih =>
      intro fs hfs
      rw [List.mapM_cons] at hfs
      obtain ⟨gs, hgs, hrest⟩ := Option.bind_eq_some_iff.1 hfs
      obtain ⟨fs', hfs', hcons⟩ := Option.bind_eq_some_iff.1 hrest
      cases hcons
      obtain ⟨hflat, hsome⟩ := ih fs' hfs'
      have hversions : versions g = gs := by rw [versions, hgs, Option.getD_some]
      refine ⟨?_, ?_⟩
      · rw [List.flatten_cons, List.flatMap_cons, hflat, hversions]
      · intro f hf
        rcases List.mem_cons.1 hf with rfl | hf
        · rw [hversions, hgs]
        · exact hsome f hf
  obtain ⟨hflat, hsome⟩ := hall P.functions fs hfs
  exact ⟨by rw [hflat], hsome⟩

theorem name_of_mem_versions (h : g ∈ versions f) : g.name = f.name ∨ g.name = f.cloneName := by
  unfold versions runOnFunction at h
  split at h
  · rw [Option.getD_some, List.mem_singleton] at h
    exact Or.inl (h ▸ rfl)
  · split at h
    · rw [Option.getD_some, List.mem_singleton] at h
      exact Or.inl (h ▸ rfl)
    · split at h
      · rw [Option.getD_some, List.mem_singleton] at h
        exact Or.inl (h ▸ rfl)
      · split at h
        · rw [Option.getD_some, List.mem_cons, List.mem_singleton] at h
          rcases h with rfl | rfl
          · exact Or.inl rfl
          · exact Or.inr rfl
        · cases h

/-- The names of the versions differ. -/
theorem nodup_versions (hP : P.Linked) (hf : f ∈ P.functions) :
    ((versions f).map Func.name).Nodup := by
  have hne : f.name ≠ f.cloneName := by
    intro heq
    refine hP.clone_new f hf ?_
    rw [← heq]
    exact List.mem_map_of_mem (List.mem_append_left _ hf)
  unfold versions runOnFunction
  split
  · exact List.nodup_singleton _
  · split
    · exact List.nodup_singleton _
    · split
      · exact List.nodup_singleton _
      · split
        · exact List.nodup_cons.2 ⟨fun h => hne (List.mem_singleton.1 h), List.nodup_singleton _⟩
        · exact List.nodup_nil

/-- **The names after the pass** still differ. -/
theorem nodup_runPass (hP : P.Linked) (hT : P.runPass = some T) : T.names.Nodup := by
  obtain ⟨rfl, -⟩ := runPass_eq hT
  have hnodup := hP.nodup
  rw [Program.names, Program.all, List.map_append, List.nodup_append] at hnodup ⊢
  obtain ⟨hfunctions, hlibrary, hdisjoint⟩ := hnodup
  have hmem : ∀ f ∈ P.functions, f.name ∈ P.names := fun f hf =>
    List.mem_map_of_mem (List.mem_append_left _ hf)
  refine ⟨?_, hlibrary, ?_⟩
  · dsimp only
    rw [List.map_flatMap, List.nodup_flatMap]
    refine ⟨fun f hf => nodup_versions hP hf, ?_⟩
    rw [List.Nodup, List.pairwise_map] at hfunctions
    refine hfunctions.imp_of_mem fun {f g} hf hg hne name hnf hng => ?_
    obtain ⟨f', hf', rfl⟩ := List.mem_map.1 hnf
    obtain ⟨g', hg', heq⟩ := List.mem_map.1 hng
    rcases name_of_mem_versions hf' with hname | hname <;>
      rcases name_of_mem_versions hg' with hname' | hname'
    · exact hne (hname.symm.trans (heq.symm.trans hname'))
    · exact hP.clone_new g hg (hname'.symm.trans (heq.trans hname) ▸ hmem f hf)
    · exact hP.clone_new f hf (hname.symm.trans (heq.symm.trans hname') ▸ hmem g hg)
    · exact hne (cloneName_inj (hname.symm.trans (heq.symm.trans hname')))
  · intro name hname name' hname' heq
    obtain ⟨g, hg, rfl⟩ := List.mem_map.1 hname
    obtain ⟨f, hf, hgf⟩ := List.mem_flatMap.1 hg
    rcases name_of_mem_versions hgf with hgname | hgname
    · exact hdisjoint f.name (List.mem_map_of_mem hf) name' hname' (hgname.symm.trans heq)
    · refine hP.clone_new f hf ?_
      rw [← hgname, heq, Program.names, Program.all, List.map_append]
      exact List.mem_append_right _ hname'

/-- **Which function has a name after the pass**, and which of its invocations the tool is to
see. -/
theorem lookup_runPass (hP : P.Linked) (hT : P.runPass = some T)
    (hf : P.lookup name = some f) :
    (T.lookup name = some f ∧ ∀ status, P.logs f status = false) ∨
      (P.Instrumented f ∧ f.inPlace = true ∧ T.lookup name = some (f.rewrite f.name) ∧
        ∀ status, P.logs f status = true) ∨
      (P.Instrumented f ∧ f.inPlace = false ∧ T.lookup name = some f.dispatcher ∧
        T.lookup f.cloneName = some (f.rewrite f.cloneName) ∧
          ∀ status, P.logs f status = decide (status = 1)) := by
  have hnodup := nodup_runPass hP hT
  obtain ⟨hmem, rfl⟩ := (lookup_eq_some_iff hP.nodup).1 hf
  obtain ⟨hTeq, hsome⟩ := runPass_eq hT
  have hlook : ∀ {g n}, g ∈ T.all → g.name = n → T.lookup n = some g := fun hg hn =>
    (lookup_eq_some_iff hnodup).2 ⟨hg, hn⟩
  rcases List.mem_append.1 hmem with hunit | hlib
  · have hany : P.functions.any (fun g => g.name = f.name) = true :=
      List.any_eq_true.2 ⟨f, hunit, decide_eq_true rfl⟩
    have hversion : ∀ {g}, g ∈ versions f → g ∈ T.all := by
      intro g hg
      rw [hTeq]
      exact List.mem_append_left _ (List.mem_flatMap.2 ⟨f, hunit, hg⟩)
    have hrun := hsome f hunit
    unfold runOnFunction at hrun
    by_cases hskip : f.skipped = true
    · rw [if_pos hskip] at hrun
      refine Or.inl ⟨hlook (hversion ?_) rfl, fun status => by simp [Program.logs, hskip]⟩
      rw [← Option.some.inj hrun]
      exact List.mem_singleton_self f
    rw [if_neg hskip] at hrun
    rw [Bool.not_eq_true] at hskip
    by_cases hmain : f.name = "main"
    · rw [if_pos hmain] at hrun
      refine Or.inl ⟨hlook (hversion ?_) rfl, fun status => by simp [Program.logs, hmain]⟩
      rw [← Option.some.inj hrun]
      exact List.mem_singleton_self f
    rw [if_neg hmain] at hrun
    by_cases hplace : f.inPlace = true
    · rw [if_pos hplace] at hrun
      refine Or.inr (Or.inl ⟨⟨hunit, hskip, hmain⟩, hplace, hlook (hversion ?_) rfl,
        fun status => by simp [Program.logs, hany, hskip, hmain, hplace]⟩)
      rw [← Option.some.inj hrun]
      exact List.mem_singleton_self _
    rw [if_neg hplace] at hrun
    rw [Bool.not_eq_true] at hplace
    split at hrun
    · refine Or.inr (Or.inr ⟨⟨hunit, hskip, hmain⟩, hplace, hlook (hversion ?_) rfl,
        hlook (hversion ?_) rfl,
        fun status => by simp [Program.logs, hany, hskip, hmain, hplace]⟩)
      · rw [← Option.some.inj hrun]
        exact List.mem_cons_self
      · rw [← Option.some.inj hrun]
        exact List.mem_cons_of_mem _ (List.mem_singleton_self _)
    · cases hrun
  · refine Or.inl ⟨hlook ?_ rfl, fun status => ?_⟩
    · rw [hTeq]
      exact List.mem_append_right _ hlib
    · have hany : P.functions.any (fun g => g.name = f.name) = false := by
        rw [List.any_eq_false]
        intro g hg hname
        have hnodup := hP.nodup
        rw [Program.names, Program.all, List.map_append, List.nodup_append] at hnodup
        exact hnodup.2.2 g.name (List.mem_map_of_mem hg) f.name (List.mem_map_of_mem hlib)
          (of_decide_eq_true hname)
      rw [Program.logs, hany]
      rfl

end Transforms
end Sword
