/-
Aesd.Driver.ModuleLifecycle — the module from one `insmod` to the next.

`aesd_init_module` asks for a device number, clears `aesd_device` and adds
the character device; either request can be refused, and after the second
the number is given back. Files can be opened while the device is there, and
since `aesd_fops` names its owner the module stays while one is open. So an
unloaded module has left nothing behind, and a loaded one holds what was
written since it was loaded (`loaded_module_holds_writes`): its last ten lines
are what is read back (`written_lines_read_back`).

Calls that overlap are calls that follow each other, so a call is one step.
-/
import Aesd.Library.StepSystem
import Aesd.Driver.ReadRuns
import Aesd.Driver.WriteRuns

namespace Aesd.Driver

open StepSystem

/-! ## Loading and unloading -/

structure Module where
  loaded : Bool
  /-- `aesd_major`. -/
  aesdMajor : Nat
  /-- The majors that are registered for the module. -/
  regions : List Nat
  /-- The majors that a character device answers to. -/
  cdevs : List Nat
  openFiles : Nat
  kernel : Kernel
  /-- The writes since the module was loaded, and what they returned. -/
  written : List (WriteCall × Int)

/-- Before the first `insmod`. -/
def Module.init : Module := ⟨false, 0, [], [], 0, aesdInitModule, []⟩

/-- What the kernel answers to `aesd_init_module`: the major it gives out, if
any, and whether `cdev_add` succeeds. -/
structure InitEnv where
  major : Option Nat
  cdevAdded : Bool

/-- `aesd_init_module`, which clears `aesd_device` and keeps the heap. -/
def initModule (env : InitEnv) (m : Module) : Module :=
  match env.major with
  | none => { m with aesdMajor := 0 }
  | some aesdMajor =>
    let m := { m with
      aesdMajor
      regions := aesdMajor :: m.regions
      kernel := { m.kernel with dev := aesdInitModule.dev }
      written := [] }
    if env.cdevAdded then { m with loaded := true, cdevs := aesdMajor :: m.cdevs }
    else { m with regions := m.regions.erase aesdMajor }

/-- `aesd_cleanup_module`. -/
def cleanupModule (m : Module) : Module :=
  { m with
    loaded := false
    cdevs := m.cdevs.erase m.aesdMajor
    kernel := aesdCleanupModule m.kernel
    regions := m.regions.erase m.aesdMajor }

/-- The writes so far, after the call. -/
def recordWrite (k : Kernel) (written : List (WriteCall × Int)) : Call → List (WriteCall × Int)
  | .write w => written ++ [(w, (w.run k).1)]
  | _ => written

inductive ModuleAction where
  | insmod (env : InitEnv)
  | openFile
  | call (c : Call)
  | releaseFile
  | rmmod

/-- The kernel loads a module once, opens its device while there is one, makes
calls on open files, and keeps the module while there are any. -/
def moduleStep (llseek : Nat → Int → Int → Nat → SeekResult) (m : Module) :
    ModuleAction → Option Module
  | .insmod env => if m.loaded then none else some (initModule env m)
  | .openFile =>
    if m.aesdMajor ∈ m.cdevs then some { m with openFiles := m.openFiles + 1 } else none
  | .call c =>
    if m.openFiles = 0 then none
    else some { m with
      kernel := c.run llseek m.kernel
      written := recordWrite m.kernel m.written c }
  | .releaseFile =>
    if m.openFiles = 0 then none else some { m with openFiles := m.openFiles - 1 }
  | .rmmod => if m.loaded ∧ m.openFiles = 0 then some (cleanupModule m) else none

/-! ## The invariant -/

/-- Nothing of the module is left. -/
structure Module.Gone (m : Module) : Prop where
  regions : m.regions = []
  cdevs : m.cdevs = []
  openFiles : m.openFiles = 0
  owns : m.kernel.heap.Owns []

/-- The device is there, once, and holds what has been written to it. -/
structure Module.Live (m : Module) : Prop where
  regions : m.regions = [m.aesdMajor]
  cdevs : m.cdevs = [m.aesdMajor]
  idle : m.kernel.Idle
  holds : ∃ pieces, List.Forall₂ (fun w piece => Accepted w.1 w.2 piece) m.written pieces ∧
    m.kernel.view = Device.empty.feed pieces.flatten

def Module.Inv (m : Module) : Prop := if m.loaded then m.Live else m.Gone

theorem Module.Gone.inv {m : Module} (h : m.Gone) (hloaded : m.loaded = false) : m.Inv := by
  simpa [Inv, hloaded] using h

theorem Module.Live.inv {m : Module} (h : m.Live) (hloaded : m.loaded = true) : m.Inv := by
  simpa [Inv, hloaded] using h

/-- A cleared device on a heap without live blocks. -/
theorem idle_cleared {heap : BlockHeap UInt8} (h : heap.Owns []) :
    Kernel.Idle { heap, dev := aesdInitModule.dev } where
  owned := {
    ring := wellFormed_init
    owns := h
    backed := by
      intro e he
      have hzero : e = .zero := by
        rcases List.mem_append.mp he with he | he
        · exact List.eq_of_mem_replicate he
        · exact List.mem_singleton.mp he
      rw [hzero]
      exact AesdBufferEntry.backed_zero _ }
  lock := rfl

theorem view_cleared (heap : BlockHeap UInt8) :
    Kernel.view { heap, dev := aesdInitModule.dev } = Device.empty := by
  have hring : aesdInitModule.dev.cBuffer.fromOldest = [] := fromOldest_init
  simp only [Kernel.view, hring]
  rfl

theorem Module.Gone.insmod {m : Module} (h : m.Gone) (hloaded : m.loaded = false) (env : InitEnv) :
    (initModule env m).Inv := by
  unfold initModule
  cases env.major with
  | none => exact Module.Gone.inv ⟨h.regions, h.cdevs, h.openFiles, h.owns⟩ hloaded
  | some aesdMajor =>
    cases env.cdevAdded with
    | false =>
      exact Module.Gone.inv ⟨by simp [h.regions], h.cdevs, h.openFiles, h.owns⟩ hloaded
    | true =>
      refine Module.Live.inv ⟨by simp [h.regions], by simp [h.cdevs], idle_cleared h.owns, ?_⟩ rfl
      exact ⟨[], .nil, view_cleared m.kernel.heap⟩

theorem Module.Live.call {m : Module} (h : m.Live)
    (llseek : Nat → Int → Int → Nat → SeekResult) (c : Call) :
    Module.Live { m with
      kernel := c.run llseek m.kernel
      written := recordWrite m.kernel m.written c } where
  regions := h.regions
  cdevs := h.cdevs
  idle := h.idle.call llseek c
  holds := by
    obtain ⟨pieces, hpieces, hview⟩ := h.holds
    have hquiet : (∀ w, c ≠ .write w) → (c.run llseek m.kernel).view
        = Device.empty.feed pieces.flatten := fun hno => by
      rw [Call.view_run h.idle.owned llseek c hno, hview]
    cases c with
    | write w =>
      obtain ⟨piece, hpiece, hfed⟩ := aesdWrite_accepted w h.idle.owned
      refine ⟨pieces ++ [piece], List.rel_append hpieces (.cons hpiece .nil), ?_⟩
      rw [List.flatten_append, Device.feed_append, ← hview, List.flatten_singleton]
      exact hfed
    | read => exact ⟨pieces, hpieces, hquiet nofun⟩
    | lseek => exact ⟨pieces, hpieces, hquiet nofun⟩
    | ioctl => exact ⟨pieces, hpieces, hquiet nofun⟩

theorem Module.Live.rmmod {m : Module} (h : m.Live) (hopen : m.openFiles = 0) :
    (cleanupModule m).Gone where
  regions := by simp [cleanupModule, h.regions]
  cdevs := by simp [cleanupModule, h.cdevs]
  openFiles := hopen
  owns := cleanup_owns_nothing h.idle.owned

theorem Module.Inv.step {m m' : Module} {llseek : Nat → Int → Int → Nat → SeekResult}
    {a : ModuleAction} (h : m.Inv) (hstep : moduleStep llseek m a = some m') : m'.Inv := by
  cases hloaded : m.loaded with
  | false =>
    have hgone : m.Gone := by simpa [Inv, hloaded] using h
    cases a with
    | insmod env =>
      rw [moduleStep, hloaded] at hstep
      cases hstep
      exact hgone.insmod hloaded env
    | openFile => simp [moduleStep, hgone.cdevs] at hstep
    | call c => simp [moduleStep, hgone.openFiles] at hstep
    | releaseFile => simp [moduleStep, hgone.openFiles] at hstep
    | rmmod => simp [moduleStep, hloaded] at hstep
  | true =>
    have hlive : m.Live := by simpa [Inv, hloaded] using h
    cases a with
    | insmod env => simp [moduleStep, hloaded] at hstep
    | openFile =>
      rw [moduleStep, if_pos (by simp [hlive.cdevs])] at hstep
      cases hstep
      exact Module.Live.inv ⟨hlive.regions, hlive.cdevs, hlive.idle, hlive.holds⟩ hloaded
    | call c =>
      rw [moduleStep] at hstep
      split at hstep
      · cases hstep
      · cases hstep
        exact (hlive.call llseek c).inv hloaded
    | releaseFile =>
      rw [moduleStep] at hstep
      split at hstep
      · cases hstep
      · cases hstep
        exact Module.Live.inv ⟨hlive.regions, hlive.cdevs, hlive.idle, hlive.holds⟩ hloaded
    | rmmod =>
      rw [moduleStep] at hstep
      split at hstep
      · rename_i hopen
        cases hstep
        exact (hlive.rmmod hopen.2).inv rfl
      · cases hstep

/-- The invariant of every run. -/
theorem moduleInv_run {llseek : Nat → Int → Int → Nat → SeekResult} {schedule : List ModuleAction}
    {m : Module} (hrun : run (moduleStep llseek) .init schedule = some m) : m.Inv := by
  have hinit : Module.init.Inv := ⟨rfl, rfl, rfl, BlockHeap.owns_empty⟩
  exact run_invariant (fun _ _ _ => Module.Inv.step) hinit hrun

/-- **Loaded and unloaded, in every run.** While the module is not loaded, after
a load that failed as well, no number is registered, no device is there, no
file is open and none of its memory is allocated. While it is loaded there is
one device under one number, its mutex is free between the calls, and it holds
what its writes have accepted since it was loaded, and nothing from before.
No block is ever misused. -/
theorem loaded_module_holds_writes {llseek : Nat → Int → Int → Nat → SeekResult}
    {schedule : List ModuleAction} {m : Module}
    (hrun : run (moduleStep llseek) .init schedule = some m) :
    m.kernel.heap.faults = [] ∧
    (m.loaded = false → m.regions = [] ∧ m.cdevs = [] ∧ m.openFiles = 0 ∧
      ∀ id, m.kernel.heap.block id = none) ∧
    (m.loaded = true → m.regions = [m.aesdMajor] ∧ m.cdevs = [m.aesdMajor] ∧
      m.kernel.dev.lock = false ∧
      ∃ pieces, List.Forall₂ (fun w piece => Accepted w.1 w.2 piece) m.written pieces ∧
        m.kernel.view = Device.empty.feed pieces.flatten) := by
  have h := moduleInv_run hrun
  cases hloaded : m.loaded with
  | false =>
    have hgone : m.Gone := by simpa [Module.Inv, hloaded] using h
    refine ⟨hgone.owns.faults, fun _ => ⟨hgone.regions, hgone.cdevs, hgone.openFiles, ?_⟩, nofun⟩
    intro id
    simpa using (hgone.owns.live id).not.mpr List.not_mem_nil
  | true =>
    have hlive : m.Live := by simpa [Module.Inv, hloaded] using h
    exact ⟨hlive.idle.owned.owns.faults, nofun,
      fun _ => ⟨hlive.regions, hlive.cdevs, hlive.idle.lock, hlive.holds⟩⟩

/-- A run with two loads, one in vain, and one write. -/
def reloadSchedule : List ModuleAction :=
  [.insmod ⟨some 240, false⟩, .insmod ⟨some 240, true⟩, .openFile, .releaseFile, .rmmod,
    .insmod ⟨some 241, true⟩, .openFile,
    .call (.write ⟨fun _ _ => some fun _ => 0, .ok, [97, endCharacter]⟩)]

theorem run_reloadSchedule : ∃ m, run (moduleStep fun fPos _ _ _ => ⟨0, fPos⟩) .init reloadSchedule
      = some m ∧ m.loaded = true ∧ m.aesdMajor = 241 ∧
    m.written.map Prod.snd = [2] ∧ m.written.map (fun w => w.1.buf) = [[97, endCharacter]] :=
  ⟨_, rfl, rfl, rfl, rfl, rfl⟩

theorem module_loaded_again : ∃ m, run (moduleStep fun fPos _ _ _ => ⟨0, fPos⟩) .init reloadSchedule
      = some m ∧ m.regions = [241] ∧ m.kernel.heap.faults = [] := by
  obtain ⟨m, hm, hloaded, hmajor, -⟩ := run_reloadSchedule
  obtain ⟨hfaults, -, hlive⟩ := loaded_module_holds_writes hm
  exact ⟨m, hm, by rw [(hlive hloaded).1, hmajor], hfaults⟩

/-! ## Reading back -/

/-- Where no write fails everything is accepted. -/
theorem flatten_of_accepted {written : List (WriteCall × Int)} {pieces : List (List UInt8)}
    (h : List.Forall₂ (fun w piece => Accepted w.1 w.2 piece) written pieces)
    (hok : ∀ w ∈ written, 0 ≤ w.2) : pieces = written.map fun w => w.1.buf := by
  induction h with
  | nil => rfl
  | @cons w piece written pieces hpiece _ ih =>
    have hret := hok w List.mem_cons_self
    rw [ih fun w hw => hok w (List.mem_cons_of_mem _ hw), List.map_cons]
    rcases hpiece with ⟨-, rfl⟩ | ⟨hneg, -⟩
    · rfl
    · omega

/-- **What was written is read back.** Whenever the module is loaded and no
write since has failed, reading from the start until a read returns zero, with
counts of any sizes, delivers the last ten complete lines of all that was
written, in whatever pieces that was and whatever else was called. -/
theorem written_lines_read_back {llseek : Nat → Int → Int → Nat → SeekResult}
    {schedule : List ModuleAction} {m : Module}
    (hrun : run (moduleStep llseek) .init schedule = some m) (hloaded : m.loaded = true)
    (hok : ∀ w ∈ m.written, 0 ≤ w.2) {counts : Nat → Nat} (hcounts : ∀ i, 0 < counts i) :
    ∃ n, (∀ i < n, 0 < (readNumber counts 0 m.kernel i).retval) ∧
      (readNumber counts 0 m.kernel n).retval = 0 ∧
      (List.range n).flatMap (fun i => (readNumber counts 0 m.kernel i).data)
        = ((Delimited.lines endCharacter (m.written.map fun w => w.1.buf).flatten).rtake
            10).flatten := by
  have hlive : m.Live := by simpa [Module.Inv, hloaded] using moduleInv_run hrun
  obtain ⟨pieces, hpieces, hview⟩ := hlive.holds
  obtain ⟨n, hn⟩ := hlive.idle.reads_to_end counts 0 hcounts
  refine ⟨n, fun i hi => (hn.nonzero i hi).1, hn.zero, ?_⟩
  rw [hn.delivers, List.drop_zero, Device.contents, hview, Device.feed_empty,
    flatten_of_accepted hpieces hok]

theorem written_line_read_back : ∃ m n,
    run (moduleStep fun fPos _ _ _ => ⟨0, fPos⟩) .init reloadSchedule = some m ∧
    (List.range n).flatMap (fun i => (readNumber (fun _ => 1) 0 m.kernel i).data)
      = [97, endCharacter] := by
  obtain ⟨m, hm, hloaded, -, hrets, hbufs⟩ := run_reloadSchedule
  have hok : ∀ w ∈ m.written, 0 ≤ w.2 := by
    intro w hw
    have hret := List.mem_map_of_mem (f := Prod.snd) hw
    rw [hrets, List.mem_singleton] at hret
    omega
  obtain ⟨n, -, -, hdata⟩ := written_lines_read_back hm hloaded hok fun _ => Nat.one_pos
  rw [hbufs] at hdata
  exact ⟨m, n, hm, hdata⟩

end Aesd.Driver
