import Xv6.File.Procs

/-!
# Reference counts of open files and pipes

Along every run of the descriptor calls, `fork` and `exit` from a booted system:

* `RefInv`: each file's `ref` is the number of (process, descriptor) pairs that hold it, and a
  free slot is of type `FD_NONE`;
* `PipeInv`: end `w` of a pipe is open exactly when a file with a reference is that end, no two
  files are the same end, a page holds a pipe while one of its ends is open, and the page of a
  pipe file holds its pipe.

`RefInv.effect` proves that every `Effect` keeps both, one lemma for each kind of call;
`file_refs` is the invariant of every reachable state.
-/

namespace Xv6

/-- The read end (`w = false`) or the write end of the pipe on page `pa`: a pipe file with a
reference. -/
def IsEnd (ft : FTable) (f : Fin NFILE) (pa : Nat) (w : Bool) : Prop :=
  0 < (ft f).ref ∧ (ft f).type = .FD_PIPE ∧ (ft f).pipe = pa ∧ (ft f).writable = w

/-- Whether end `w` of a pipe is open: `writeopen` for the write end, `readopen` for the read
end. -/
def Pipe.endOpen (pi : Pipe) (w : Bool) : Bool := if w then pi.writeopen else pi.readopen

theorem Pipe.endOpen_pipeclose (pi : Pipe) (w w' : Bool) :
    (pipeclose pi w).endOpen w' = (w' != w && pi.endOpen w') := by
  cases w <;> cases w' <;> simp [pipeclose, Pipe.endOpen]

theorem Pipe.open_iff_endOpen (pi : Pipe) :
    (pi.readopen || pi.writeopen) = true ↔ ∃ w, pi.endOpen w = true := by
  constructor
  · intro h
    cases hr : pi.readopen
    · exact ⟨true, by simpa [Pipe.endOpen, hr] using h⟩
    · exact ⟨false, hr⟩
  · rintro ⟨w, hw⟩
    cases w <;> simp_all [Pipe.endOpen]

/-- The pipes agree with the table. -/
structure PipeInv (ft : FTable) (pipes : Pipes) : Prop where
  open_iff : ∀ pa pi w, pipes pa = some pi → (pi.endOpen w = true ↔ ∃ f, IsEnd ft f pa w)
  some_open : ∀ pa pi, pipes pa = some pi → (pi.readopen || pi.writeopen) = true
  end_page : ∀ f pa w, IsEnd ft f pa w → pipes pa ≠ none
  end_unique : ∀ f g pa w, IsEnd ft f pa w → IsEnd ft g pa w → f = g

/-- The reference counts are right, a free slot is of type `FD_NONE`, and the pipes agree with
the table. -/
structure RefInv (s : FSys) : Prop where
  ref_eq : ∀ f, (s.ft f).ref = nrefs s.procs f
  free_none : ∀ f, (s.ft f).ref = 0 → (s.ft f).type = .FD_NONE
  pipes : PipeInv s.ft s.pipes

/-! ## Ends of pipes in a changed table -/

/-- `PipeInv` reads the table only through `IsEnd`. -/
theorem PipeInv.congr {ft ft' : FTable} {pipes : Pipes} (h : PipeInv ft pipes)
    (hend : ∀ f pa w, IsEnd ft' f pa w ↔ IsEnd ft f pa w) : PipeInv ft' pipes where
  open_iff pa pi w hpa := by simpa only [hend] using h.open_iff pa pi w hpa
  some_open := h.some_open
  end_page f pa w hf := h.end_page f pa w ((hend f pa w).mp hf)
  end_unique f g pa w hf hg := h.end_unique f g pa w ((hend f pa w).mp hf) ((hend g pa w).mp hg)

theorem KeepsLive.isEnd_iff {ft ft' : FTable} (h : KeepsLive ft ft') (f : Fin NFILE) (pa : Nat) (w : Bool) :
    IsEnd ft' f pa w ↔ IsEnd ft f pa w := by
  rcases h f with hf | ⟨h0, h0', -⟩
  · simp only [IsEnd, hf]
  · simp only [IsEnd, h0, h0', lt_self_iff_false, false_and]

theorem isEnd_update {ft : FTable} {f g : Fin NFILE} {F : File} {pa : Nat} {w : Bool} (hg : g ≠ f) :
    IsEnd (Function.update ft f F) g pa w ↔ IsEnd ft g pa w := by
  simp only [IsEnd, Function.update_of_ne hg]

/-- Freeing the slot of the only file that is one end of a pipe, and closing that end, keeps
the pipes in agreement with the table. -/
theorem PipeInv.close_end {ft : FTable} {pipes : Pipes} {f : Fin NFILE} (h : PipeInv ft pipes)
    (hf : IsEnd ft f (ft f).pipe (ft f).writable) :
    PipeInv (Function.update ft f { ft f with type := .FD_NONE, ref := 0 })
      (pipeclosePage pipes (ft f).pipe (ft f).writable) := by
  set pa := (ft f).pipe
  set w := (ft f).writable
  obtain ⟨pi, hpi⟩ := Option.ne_none_iff_exists'.mp (h.end_page f pa w hf)
  -- the ends of the new table are the old ones but `f`
  have hend : ∀ g pa' w', IsEnd (Function.update ft f { ft f with type := .FD_NONE, ref := 0 }) g pa' w' ↔
      IsEnd ft g pa' w' ∧ g ≠ f := by
    intro g pa' w'
    by_cases hg : g = f
    · subst hg
      simp [IsEnd]
    · simp [isEnd_update hg, hg]
  -- no other file is end `w` of the pipe on `pa`
  have hother : ∀ g, IsEnd ft g pa w → g = f := fun g hg => h.end_unique g f pa w hg hf
  have hpage : ∀ pa', pa' ≠ pa → ∀ g w', IsEnd ft g pa' w' → g ≠ f := by
    rintro pa' hpa' g w' hg rfl
    exact hpa' hg.2.2.1.symm
  refine ⟨fun pa' pi' w' hpi' => ?_, fun pa' pi' hpi' => ?_, fun g pa' w' hg => ?_, ?_⟩
  · simp only [hend]
    by_cases hpa' : pa' = pa
    · subst hpa'
      rw [pipeclosePage_self hpi] at hpi'
      split at hpi'
      · cases hpi'
        rw [Pipe.endOpen_pipeclose]
        by_cases hw : w' = w
        · subst hw
          simp only [bne_self_eq_false, Bool.false_and, Bool.false_eq_true, false_iff, not_exists, not_and]
          exact fun g hg hgf => hgf (hother g hg)
        · have hww : (w' != w) = true := by simpa using hw
          rw [hww, Bool.true_and, h.open_iff pa pi w' hpi]
          refine ⟨fun ⟨g, hg⟩ => ⟨g, hg, ?_⟩, fun ⟨g, hg, _⟩ => ⟨g, hg⟩⟩
          rintro rfl
          exact hw hg.2.2.2.symm
      · cases hpi'
    · rw [pipeclosePage_of_ne pipes hpa'] at hpi'
      rw [h.open_iff pa' pi' w' hpi']
      exact ⟨fun ⟨g, hg⟩ => ⟨g, hg, hpage pa' hpa' g w' hg⟩, fun ⟨g, hg, _⟩ => ⟨g, hg⟩⟩
  · by_cases hpa' : pa' = pa
    · subst hpa'
      rw [pipeclosePage_self hpi] at hpi'
      split at hpi'
      · cases hpi'
        assumption
      · cases hpi'
    · rw [pipeclosePage_of_ne pipes hpa'] at hpi'
      exact h.some_open pa' pi' hpi'
  · obtain ⟨hg, hgf⟩ := (hend g pa' w').mp hg
    by_cases hpa' : pa' = pa
    · subst hpa'
      -- `g` is the other end, which is still open, so the page keeps its pipe
      have hw : w' ≠ w := fun hw => hgf (hother g (hw ▸ hg))
      have hopen : (pipeclose pi w).endOpen w' = true := by
        rw [Pipe.endOpen_pipeclose, (h.open_iff pa pi w' hpi).mpr ⟨g, hg⟩]
        simpa using hw
      rw [pipeclosePage_self hpi, if_pos ((Pipe.open_iff_endOpen _).mpr ⟨w', hopen⟩)]
      exact Option.some_ne_none _
    · rw [pipeclosePage_of_ne pipes hpa']
      exact h.end_page g pa' w' hg
  · intro g₁ g₂ pa' w' h₁ h₂
    exact h.end_unique g₁ g₂ pa' w' ((hend _ _ _).mp h₁).1 ((hend _ _ _).mp h₂).1

/-- Two free slots made the ends of a new pipe on a page that held none. -/
theorem PipeInv.newPipe {ft : FTable} {pipes : Pipes} {f0 f1 : Fin NFILE} {pa : Nat} (h : PipeInv ft pipes)
    (hf0 : (ft f0).ref = 0) (hf1 : (ft f1).ref = 0) (hf : f0 ≠ f1) (hpa : pipes pa = none) :
    PipeInv (pipeEnds ft f0 f1 pa) (Function.update pipes pa (some (Pipe.init fun _ => 0))) := by
  have hold : ∀ g w, ¬ IsEnd ft g pa w := fun g w hg => h.end_page g pa w hg hpa
  -- on `pa` the ends are `f0` and `f1`, elsewhere they are the old ones
  have hon : ∀ g w, IsEnd (pipeEnds ft f0 f1 pa) g pa w ↔ g = if w then f1 else f0 := by
    intro g w
    by_cases h0 : g = f0
    · subst h0
      cases w <;> simp [IsEnd, pipeEnds, hf]
    · by_cases h1 : g = f1
      · subst h1
        cases w <;> simp [IsEnd, pipeEnds, h0]
      · have := hold g w
        cases w <;> simp_all [IsEnd, pipeEnds]
  have hoff : ∀ g pa' w, pa' ≠ pa → (IsEnd (pipeEnds ft f0 f1 pa) g pa' w ↔ IsEnd ft g pa' w) := by
    intro g pa' w hpa'
    by_cases h0 : g = f0
    · subst h0
      simp [IsEnd, pipeEnds, hf0, Ne.symm hpa']
    · by_cases h1 : g = f1
      · subst h1
        simp [IsEnd, pipeEnds, h0, hf1, Ne.symm hpa']
      · simp [IsEnd, pipeEnds, h0, h1]
  refine ⟨fun pa' pi w hpi => ?_, fun pa' pi hpi => ?_, fun g pa' w hg => ?_, fun g₁ g₂ pa' w h₁ h₂ => ?_⟩
  · by_cases hpa' : pa' = pa
    · subst hpa'
      simp only [Function.update_self, Option.some.injEq] at hpi
      subst hpi
      simp only [hon, exists_eq, iff_true]
      cases w <;> rfl
    · rw [Function.update_of_ne hpa'] at hpi
      simp only [hoff _ _ _ hpa', h.open_iff pa' pi w hpi]
  · by_cases hpa' : pa' = pa
    · subst hpa'
      simp only [Function.update_self, Option.some.injEq] at hpi
      subst hpi
      rfl
    · rw [Function.update_of_ne hpa'] at hpi
      exact h.some_open pa' pi hpi
  · by_cases hpa' : pa' = pa
    · subst hpa'
      simp
    · rw [Function.update_of_ne hpa']
      exact h.end_page g pa' w ((hoff g pa' w hpa').mp hg)
  · by_cases hpa' : pa' = pa
    · subst hpa'
      rw [(hon g₁ w).mp h₁, (hon g₂ w).mp h₂]
    · exact h.end_unique g₁ g₂ pa' w ((hoff g₁ pa' w hpa').mp h₁) ((hoff g₂ pa' w hpa').mp h₂)

/-! ## Each kind of call keeps the invariant -/

namespace RefInv

variable {s s' : FSys}

theorem frame (h : RefInv s) (hprocs : s'.procs = s.procs) (hpipes : s'.pipes = s.pipes)
    (hft : KeepsLive s.ft s'.ft) : RefInv s' where
  ref_eq g := by
    rcases hft g with hg | ⟨h0, h0', -⟩
    · rw [hg, h.ref_eq g, hprocs]
    · rw [h0', hprocs, ← h.ref_eq g, h0]
  free_none g hg := by
    rcases hft g with hg' | ⟨-, -, hnone⟩
    · rw [hg'] at hg ⊢
      exact h.free_none g hg
    · exact hnone
  pipes := hpipes ▸ h.pipes.congr hft.isEnd_iff

/-- A new descriptor on a slot that was free. -/
theorem newFile (h : RefInv s) {p : Fin NPROC} {P : FProc} {d : Fin NOFILE} {f : Fin NFILE} {F : File}
    (hP : s.procs p = some P) (hd : P.ofile d = none) (hf : (s.ft f).ref = 0) (href : F.ref = 1)
    (htype : F.type ≠ .FD_PIPE)
    (hprocs : s'.procs = Function.update s.procs p (some { P with ofile := Function.update P.ofile d (some f) }))
    (hft : s'.ft = Function.update s.ft f F) (hpipes : s'.pipes = s.pipes) : RefInv s' where
  ref_eq g := by
    have hcount := nrefs_setFd hP d (some f) g
    rw [hd] at hcount
    rw [hprocs, hft]
    by_cases hg : g = f
    · subst hg
      have := h.ref_eq g
      simp only [refOf, if_true, reduceCtorEq, if_false] at hcount
      simp only [Function.update_self, href]
      omega
    · have hne : (some f = some g) = False := by simp [Ne.symm hg]
      simp only [refOf, hne, if_false, reduceCtorEq] at hcount
      rw [Function.update_of_ne hg, h.ref_eq g]
      omega
  free_none g hg := by
    rw [hft] at hg ⊢
    by_cases hgf : g = f
    · subst hgf
      simp [href] at hg
    · rw [Function.update_of_ne hgf] at hg ⊢
      exact h.free_none g hg
  pipes := by
    rw [hft, hpipes]
    refine h.pipes.congr fun g pa w => ?_
    by_cases hgf : g = f
    · subst hgf
      simp [IsEnd, htype, hf]
    · exact isEnd_update hgf

/-- A new descriptor on an open file, which gets one more reference. -/
theorem dup (h : RefInv s) {p : Fin NPROC} {P : FProc} {d : Fin NOFILE} {f : Fin NFILE}
    (hP : s.procs p = some P) (hd : P.ofile d = none) (hf : 0 < (s.ft f).ref)
    (hprocs : s'.procs = Function.update s.procs p (some { P with ofile := Function.update P.ofile d (some f) }))
    (hft : s'.ft = Function.update s.ft f { s.ft f with ref := (s.ft f).ref + 1 })
    (hpipes : s'.pipes = s.pipes) : RefInv s' where
  ref_eq g := by
    have hcount := nrefs_setFd hP d (some f) g
    rw [hd] at hcount
    rw [hprocs, hft]
    by_cases hg : g = f
    · subst hg
      have := h.ref_eq g
      simp only [refOf, if_true, reduceCtorEq, if_false] at hcount
      simp only [Function.update_self]
      omega
    · have hne : (some f = some g) = False := by simp [Ne.symm hg]
      simp only [refOf, hne, if_false, reduceCtorEq] at hcount
      rw [Function.update_of_ne hg, h.ref_eq g]
      omega
  free_none g hg := by
    rw [hft] at hg ⊢
    by_cases hgf : g = f
    · subst hgf
      simp only [Function.update_self] at hg
      omega
    · rw [Function.update_of_ne hgf] at hg ⊢
      exact h.free_none g hg
  pipes := by
    rw [hft, hpipes]
    refine h.pipes.congr fun g pa w => ?_
    by_cases hgf : g = f
    · subst hgf
      simp only [IsEnd, Function.update_self]
      constructor <;> rintro ⟨-, h2⟩ <;> exact ⟨by omega, h2⟩
    · exact isEnd_update hgf

/-- Clearing a descriptor and closing its file. -/
theorem closeDesc (h : RefInv s) {p : Fin NPROC} {P : FProc} {d : Fin NOFILE} {f : Fin NFILE}
    (hP : s.procs p = some P) (hd : P.ofile d = some f) (hc : s.closeDesc p P d f = .ok s') : RefInv s' := by
  have hcount : ∀ g, nrefs (Function.update s.procs p (some { P with ofile := Function.update P.ofile d none })) g +
      (if f = g then 1 else 0) = nrefs s.procs g := fun g => by
    have := nrefs_setFd hP d none g
    rw [hd] at this
    simpa [refOf] using this
  have hpos : 0 < (s.ft f).ref := by
    rw [h.ref_eq f]
    exact_mod_cast nrefs_pos hP hd
  -- the counts of the slots other than `f` do not change, and `f` has one reference less
  have hother : ∀ g, g ≠ f → (s.ft g).ref =
      nrefs (Function.update s.procs p (some { P with ofile := Function.update P.ofile d none })) g := fun g hg => by
    have := hcount g
    rw [if_neg (Ne.symm hg)] at this
    rw [h.ref_eq g]
    omega
  have hf : (s.ft f).ref =
      nrefs (Function.update s.procs p (some { P with ofile := Function.update P.ofile d none })) f + 1 := by
    have := hcount f
    rw [if_pos rfl] at this
    rw [h.ref_eq f]
    omega
  rcases FSys.closeDesc_cases hc with ⟨hgt, rfl⟩ | ⟨h1, rfl⟩
  · refine ⟨fun g => ?_, fun g hg => ?_, ?_⟩
    · by_cases hg : g = f
      · subst hg
        simp only [Function.update_self]
        omega
      · simp only [Function.update_of_ne hg]
        exact hother g hg
    · by_cases hgf : g = f
      · subst hgf
        simp only [Function.update_self] at hg
        omega
      · simp only [Function.update_of_ne hgf] at hg ⊢
        exact h.free_none g hg
    · refine h.pipes.congr fun g pa w => ?_
      by_cases hgf : g = f
      · subst hgf
        simp only [IsEnd, Function.update_self]
        constructor <;> rintro ⟨-, h2⟩ <;> exact ⟨by omega, h2⟩
      · exact isEnd_update hgf
  · refine ⟨fun g => ?_, fun g hg => ?_, ?_⟩
    · by_cases hg : g = f
      · subst hg
        simp only [Function.update_self]
        omega
      · simp only [Function.update_of_ne hg]
        exact hother g hg
    · by_cases hgf : g = f
      · subst hgf
        simp
      · simp only [Function.update_of_ne hgf] at hg ⊢
        exact h.free_none g hg
    · by_cases hpipe : (s.ft f).type = .FD_PIPE
      · -- the last close of a pipe file closes its end of the pipe
        rw [if_pos hpipe]
        exact h.pipes.close_end ⟨hpos, hpipe, rfl, rfl⟩
      · rw [if_neg hpipe]
        refine h.pipes.congr fun g pa w => ?_
        by_cases hgf : g = f
        · subst hgf
          simp [IsEnd, hpipe]
        · exact isEnd_update hgf

/-- A new pipe with two new descriptors. -/
theorem pipe (h : RefInv s) {p : Fin NPROC} {P : FProc} {fd0 fd1 : Fin NOFILE} {f0 f1 : Fin NFILE}
    {pa : Nat} (hP : s.procs p = some P) (hd0 : P.ofile fd0 = none) (hd1 : P.ofile fd1 = none)
    (hfd : fd0 ≠ fd1) (hf0 : (s.ft f0).ref = 0) (hf1 : (s.ft f1).ref = 0) (hf : f0 ≠ f1)
    (hpa : s.pipes pa = none)
    (hprocs : s'.procs = Function.update s.procs p
      (some { P with ofile := Function.update (Function.update P.ofile fd0 (some f0)) fd1 (some f1) }))
    (hft : s'.ft = pipeEnds s.ft f0 f1 pa)
    (hpipes : s'.pipes = Function.update s.pipes pa (some (Pipe.init fun _ => 0))) : RefInv s' where
  ref_eq g := by
    -- the two descriptors, set one after the other
    have h₁ := nrefs_setFd hP fd0 (some f0) g
    have h₂ := nrefs_setFd
      (Function.update_self p (some { P with ofile := Function.update P.ofile fd0 (some f0) }) s.procs) fd1 (some f1) g
    dsimp only at h₂
    rw [Function.update_idem, Function.update_of_ne (Ne.symm hfd), hd1, refOf_none] at h₂
    rw [hd0, refOf_none] at h₁
    have hcount : nrefs s'.procs g = nrefs s.procs g + refOf (some f0) g + refOf (some f1) g := by
      rw [hprocs]
      omega
    have hg := h.ref_eq g
    rw [hft, hcount]
    unfold pipeEnds
    by_cases h0 : g = f0
    · subst h0
      simp only [if_true, refOf_some, hf, Ne.symm hf, if_false]
      omega
    · by_cases h1 : g = f1
      · subst h1
        simp only [h0, if_true, if_false, refOf_some, Ne.symm h0]
        omega
      · simp only [h0, h1, if_false, refOf_some, Ne.symm h0, Ne.symm h1]
        omega
  free_none g hg := by
    rw [hft] at hg ⊢
    by_cases h0 : g = f0
    · subst h0
      simp [pipeEnds] at hg
    · by_cases h1 : g = f1
      · subst h1
        simp [pipeEnds, h0] at hg
      · simp only [pipeEnds, h0, h1, if_false] at hg ⊢
        exact h.free_none g hg
  pipes := by
    rw [hft, hpipes]
    exact h.pipes.newPipe hf0 hf1 hf hpa

/-- The child of `fork` holds the files of its parent. -/
theorem fork (h : RefInv s) {p np : Fin NPROC} {P : FProc} (hP : s.procs p = some P)
    (hnp : s.procs np = none) (hprocs : s'.procs = Function.update s.procs np (some ⟨s.nextpid, P.ofile⟩))
    (hft : ∀ g, s'.ft g = { s.ft g with ref := (s.ft g).ref + refsOf P.ofile g })
    (hpipes : s'.pipes = s.pipes) : RefInv s' := by
  -- a slot the parent holds has a reference already
  have hle : ∀ g, refsOf P.ofile g ≤ nrefs s.procs g := fun g => by
    have := procRefs_le_nrefs s.procs p g
    rwa [hP] at this
  have hcount : ∀ g, nrefs s'.procs g = nrefs s.procs g + refsOf P.ofile g := fun g => by
    have := nrefs_update s.procs np (some ⟨s.nextpid, P.ofile⟩) g
    rw [hnp] at this
    simp only [procRefs] at this
    rw [hprocs]
    omega
  refine ⟨fun g => ?_, fun g hg => ?_, ?_⟩
  · rw [hft g, hcount g, h.ref_eq g]
    push_cast
    rfl
  · rw [hft g] at hg ⊢
    have := h.ref_eq g
    have := hle g
    exact h.free_none g (by simp only at hg; omega)
  · rw [hpipes]
    refine h.pipes.congr fun g pa w => ?_
    have := h.ref_eq g
    have := hle g
    simp only [IsEnd, hft g]
    constructor <;> rintro ⟨h1, h2⟩ <;> exact ⟨by omega, h2⟩

/-- The loop of `exit` closes one descriptor after another. -/
theorem exitFiles (p : Fin NPROC) (ds : List (Fin NOFILE)) {s s₁ : FSys} (h : RefInv s)
    (hx : s.exitFiles p ds = .ok s₁) : RefInv s₁ := by
  induction ds generalizing s with
  | nil =>
    cases hx
    exact h
  | cons d ds ih =>
    unfold FSys.exitFiles at hx
    split at hx
    · cases hx
      exact h
    · next P hP =>
      split at hx
      · exact ih h hx
      · next f hd =>
        obtain ⟨s₂, h₂, hx⟩ := Except.bind_eq_ok.mp hx
        exact ih (h.closeDesc hP hd h₂) hx

/-- A process leaves with no descriptors. -/
theorem exit (h : RefInv s) {p : Fin NPROC} {P : FProc} (hP : s.procs p = some P) {s₁ : FSys}
    (hx : s.exitFiles p (List.finRange NOFILE) = .ok s₁) :
    RefInv { s₁ with procs := Function.update s₁.procs p none, held := s₁.held.filter (·.1 != p) } := by
  have h₁ := h.exitFiles p _ hx
  obtain ⟨⟨P₁, hP₁, -, hof⟩, -⟩ := FSys.exitFiles_procs hP hx
  have hzero : ∀ g, refsOf P₁.ofile g = 0 := fun g =>
    Finset.sum_eq_zero fun d _ => by simp [refOf, hof d]
  refine ⟨fun g => ?_, h₁.free_none, h₁.pipes⟩
  have := nrefs_update s₁.procs p none g
  rw [hP₁] at this
  simp only [procRefs, hzero] at this
  rw [h₁.ref_eq g]
  dsimp only
  omega

/-- A change to the sleep-lock of a file. -/
theorem setMutex (h : RefInv s) {f : Fin NFILE} {lk : SleepLock} (held : List (Fin NPROC × Fin NFILE)) :
    RefInv { s with ft := Function.update s.ft f { s.ft f with mutex := lk }, held := held } := by
  have hsame : ∀ g, (Function.update s.ft f { s.ft f with mutex := lk } g).ref = (s.ft g).ref ∧
      (Function.update s.ft f { s.ft f with mutex := lk } g).type = (s.ft g).type ∧
      (Function.update s.ft f { s.ft f with mutex := lk } g).pipe = (s.ft g).pipe ∧
      (Function.update s.ft f { s.ft f with mutex := lk } g).writable = (s.ft g).writable := fun g => by
    by_cases hg : g = f
    · subst hg
      simp
    · simp [Function.update_of_ne hg]
  refine ⟨fun g => ?_, fun g hg => ?_, h.pipes.congr fun g pa w => ?_⟩
  · rw [(hsame g).1]
    exact h.ref_eq g
  · rw [(hsame g).2.1]
    exact h.free_none g ((hsame g).1 ▸ hg)
  · obtain ⟨h1, h2, h3, h4⟩ := hsame g
    simp only [IsEnd, h1, h2, h3, h4]

/-- Every call keeps the invariant. -/
theorem effect (h : RefInv s) (he : FSys.Effect s s') : RefInv s' := by
  cases he with
  | frame hprocs hpipes hft => exact h.frame hprocs hpipes hft
  | newFile hP hd hf href htype _ hprocs hft hpipes => exact h.newFile hP hd hf href htype hprocs hft hpipes
  | dup hP hd hf hprocs hft hpipes => exact h.dup hP hd hf hprocs hft hpipes
  | close hP hd hc => exact h.closeDesc hP hd hc
  | pipe hP hd0 hd1 hfd hf0 hf1 hf hpa hprocs hft hpipes =>
    exact h.pipe hP hd0 hd1 hfd hf0 hf1 hf hpa hprocs hft hpipes
  | fork hP hnp hprocs hft hpipes => exact h.fork hP hnp hprocs hft hpipes
  | exit _ hP hx hs' =>
    subst hs'
    exact h.exit hP hx
  | acquire _ _ _ _ hs' =>
    subst hs'
    exact h.setMutex _
  | release _ _ _ _ hs' =>
    subst hs'
    exact h.setMutex _

end RefInv

/-! ## Every reachable state -/

theorem RefInv.boot (l : Log) (locks : List LockHome) : RefInv (FSys.boot l locks) where
  ref_eq f := by
    have hzero : nrefs (FSys.boot l locks).procs f = 0 :=
      (nrefs_eq_zero_iff _ f).mpr fun p P d hP => by
        by_cases hp : p = 0
        · subst hp
          simp only [FSys.boot, if_true, Option.some.injEq] at hP
          subst hP
          simp
        · simp [FSys.boot, hp] at hP
    rw [hzero]
    rfl
  free_none _ _ := rfl
  pipes := by
    have hend : ∀ f pa w, ¬ IsEnd (FSys.boot l locks).ft f pa w := fun f pa w hf => by
      simp [IsEnd, FSys.boot, ftable0] at hf
    exact ⟨fun _ _ _ h => (by cases h), fun _ _ h => (by cases h), fun f pa w hf => absurd hf (hend f pa w),
      fun f _ pa w hf => absurd hf (hend f pa w)⟩

theorem RefInv.run {s s' : FSys} (h : RefInv s) {cs : List FCall} (hr : s.run cs = .ok s') : RefInv s' := by
  induction cs generalizing s with
  | nil =>
    cases hr
    exact h
  | cons c cs ih =>
    obtain ⟨s₁, h₁, hr⟩ := Except.bind_eq_ok.mp hr
    exact ih (h.effect (FSys.step_effect h.free_none h₁)) hr

theorem RefInv.reachable {s : FSys} (hr : s.Reachable) : RefInv s := by
  obtain ⟨l, locks, cs, hr⟩ := hr
  exact (RefInv.boot l locks).run hr

/-- In every reachable state each file's `ref` is the number of (process, descriptor) pairs
that hold it, so a slot is free (and of type `FD_NONE`) exactly when no descriptor holds it;
each end of a pipe is open exactly when a file with a reference is that end; and a page holds
a pipe exactly while a file is one of its ends, so it is freed when both ends are closed. -/
theorem file_refs {s : FSys} (hr : s.Reachable) :
    (∀ f, (s.ft f).ref = nrefs s.procs f) ∧
      (∀ f, (s.ft f).ref = 0 ↔ ∀ p P d, s.procs p = some P → P.ofile d ≠ some f) ∧
      (∀ f, (s.ft f).ref = 0 → (s.ft f).type = .FD_NONE) ∧
      (∀ pa pi, s.pipes pa = some pi →
        (pi.readopen = true ↔ ∃ f, IsEnd s.ft f pa false) ∧ (pi.writeopen = true ↔ ∃ f, IsEnd s.ft f pa true)) ∧
      (∀ pa, s.pipes pa ≠ none ↔ ∃ f w, IsEnd s.ft f pa w) := by
  have h := RefInv.reachable hr
  refine ⟨h.ref_eq, fun f => ?_, h.free_none, fun pa pi hpi => ⟨h.pipes.open_iff pa pi false hpi,
    h.pipes.open_iff pa pi true hpi⟩, fun pa => ⟨fun hpa => ?_, fun ⟨f, w, hf⟩ => h.pipes.end_page f pa w hf⟩⟩
  · rw [h.ref_eq f, ← nrefs_eq_zero_iff]
    omega
  · obtain ⟨pi, hpi⟩ := Option.ne_none_iff_exists'.mp hpa
    obtain ⟨w, hw⟩ := (Pipe.open_iff_endOpen pi).mp (h.pipes.some_open pa pi hpi)
    obtain ⟨f, hf⟩ := (h.pipes.open_iff pa pi w hpi).mp hw
    exact ⟨f, w, hf⟩

/-- A `pipe` and a `fork` from a booted system: both ends have the references of the two
processes' descriptors, and the page holds the pipe. -/
theorem file_refs_pipe_fork :
    ∃ s : FSys, (FSys.boot Log.mkfsLog []).run [.pipe 0 (some 4096) true, .fork 0 1 true] = .ok s ∧
      (s.ft ⟨0, by decide⟩).ref = 2 ∧ (s.ft ⟨1, by decide⟩).ref = 2 ∧ (s.pipes 4096).isSome ∧
      ((∀ f, (s.ft f).ref = nrefs s.procs f) ∧
        (∀ f, (s.ft f).ref = 0 ↔ ∀ p P d, s.procs p = some P → P.ofile d ≠ some f) ∧
        (∀ f, (s.ft f).ref = 0 → (s.ft f).type = .FD_NONE) ∧
        (∀ pa pi, s.pipes pa = some pi →
          (pi.readopen = true ↔ ∃ f, IsEnd s.ft f pa false) ∧ (pi.writeopen = true ↔ ∃ f, IsEnd s.ft f pa true)) ∧
        (∀ pa, s.pipes pa ≠ none ↔ ∃ f w, IsEnd s.ft f pa w)) := by
  obtain ⟨s, hs⟩ : ∃ s, (FSys.boot Log.mkfsLog []).run [.pipe 0 (some 4096) true, .fork 0 1 true] = .ok s :=
    ⟨_, rfl⟩
  have h0 : (s.ft ⟨0, by decide⟩).ref = 2 := by
    cases hs
    rfl
  have h1 : (s.ft ⟨1, by decide⟩).ref = 2 := by
    cases hs
    rfl
  have hpa : (s.pipes 4096).isSome := by
    cases hs
    rfl
  exact ⟨s, hs, h0, h1, hpa, file_refs ⟨_, _, _, hs⟩⟩

end Xv6
