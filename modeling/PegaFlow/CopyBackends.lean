/-
PegaFlow/CopyBackends.lean

The two ways to run a batch of copies between device and host memory (`transfer/memcpy.rs` and
`transfer/kernel.rs`).

The copy engine gets one call for every run of descriptors that are adjacent on both sides.  The
kernel gets all descriptors: the blocks of the grid share them out, and the threads of a block share
out the bytes of each one, in units of 16 bytes where the addresses allow it.
-/
import PegaFlow.ByteRuns
import PegaFlow.Loops

namespace PegaFlow.Transfer

open List

/-! ### The copy engine -/

structure CopyDesc where
  device : ℕ
  host : ℕ
  /-- The mapped address of the host memory, as the device sees it. -/
  hostDevice : ℕ
  size : ℕ
  deviceAllocation : ℕ
  hostAllocation : ℕ

def CopyDesc.pairs (d : CopyDesc) : List (ℕ × ℕ) := copyRun d.device d.host d.size

structure Merged where
  device : ℕ
  host : ℕ
  size : ℕ

def Merged.pairs (m : Merged) : List (ℕ × ℕ) := copyRun m.device m.host m.size

/-- `next` continues the run that begins with `start`. -/
def continues (start : CopyDesc) (size : ℕ) (next : CopyDesc) : Prop :=
  (start.deviceAllocation = next.deviceAllocation ∧ start.hostAllocation = next.hostAllocation) ∧
    start.device + size = next.device ∧ start.host + size = next.host

instance (start : CopyDesc) (size : ℕ) (next : CopyDesc) : Decidable (continues start size next) :=
  inferInstanceAs (Decidable (_ ∧ _))

/-- The two loops of `merge`, in a run of `size` bytes from `start` on. -/
def mergeFrom (start : CopyDesc) (size : ℕ) : List CopyDesc → List Merged
  | [] => [⟨start.device, start.host, size⟩]
  | next :: rest =>
    if continues start size next then mergeFrom start (size + next.size) rest
    else ⟨start.device, start.host, size⟩ :: mergeFrom next next.size rest

def merge : List CopyDesc → List Merged
  | [] => []
  | start :: rest => mergeFrom start start.size rest

/-- The merged copy is that of descriptors of one host allocation. -/
def Joined (m : Merged) (run : List CopyDesc) : Prop :=
  m.pairs = run.flatMap CopyDesc.pairs ∧ ∃ allocation, ∀ d ∈ run, d.hostAllocation = allocation

theorem mergeFrom_joined (rest : List CopyDesc) {start : CopyDesc} {size : ℕ} {run : List CopyDesc}
    (hpairs : copyRun start.device start.host size = run.flatMap CopyDesc.pairs)
    (hrun : ∀ d ∈ run, d.hostAllocation = start.hostAllocation) :
    ∃ runs, runs.flatten = run ++ rest ∧ Forall₂ Joined (mergeFrom start size rest) runs := by
  induction rest generalizing start size run with
  | nil => exact ⟨[run], flatten_singleton.trans (append_nil _).symm,
      .cons ⟨hpairs, _, hrun⟩ .nil⟩
  | cons next rest ih =>
    rw [mergeFrom]
    split
    · next h =>
      obtain ⟨⟨-, halloc⟩, hdevice, hhost⟩ := h
      have hnext : copyRun start.device start.host (size + next.size) =
          (run ++ [next]).flatMap CopyDesc.pairs := by
        rw [copyRun_add, hpairs, hdevice, hhost, flatMap_append, flatMap_singleton]
        rfl
      have hsame : ∀ d ∈ run ++ [next], d.hostAllocation = start.hostAllocation := by
        intro d hd
        rcases mem_append.mp hd with hd | hd
        · exact hrun d hd
        · rw [mem_singleton.mp hd, halloc]
      obtain ⟨runs, hflat, hjoined⟩ := ih hnext hsame
      exact ⟨runs, by rw [hflat, append_assoc]; rfl, hjoined⟩
    · have hnext : ∀ d ∈ [next], d.hostAllocation = next.hostAllocation :=
        fun d hd => by rw [mem_singleton.mp hd]
      obtain ⟨runs, hflat, hjoined⟩ := ih (flatMap_singleton _ _).symm hnext
      exact ⟨run :: runs, by rw [flatten_cons, hflat]; rfl, .cons ⟨hpairs, _, hrun⟩ hjoined⟩

theorem merge_joined (ds : List CopyDesc) :
    ∃ runs, runs.flatten = ds ∧ Forall₂ Joined (merge ds) runs := by
  cases ds with
  | nil => exact ⟨[], rfl, .nil⟩
  | cons start rest =>
    exact mergeFrom_joined rest (flatMap_singleton _ _).symm
      fun d hd => by rw [mem_singleton.mp hd]

/-! ### Strided loops -/

/-- `for (j = start; j < bound; j += step)`, with fuel. -/
def strided (step bound : ℕ) : ℕ → ℕ → List ℕ
  | 0, _ => []
  | fuel + 1, j => if j < bound then j :: strided step bound fuel (j + step) else []

/-- The loop of one of several workers. -/
def loopFrom (step bound start : ℕ) : List ℕ := strided step bound bound start

section Strided

variable {step bound : ℕ}

theorem mem_strided (hstep : 0 < step) {fuel start x : ℕ} (hfuel : bound ≤ start + fuel) :
    x ∈ strided step bound fuel start ↔ x < bound ∧ ∃ k, x = start + k * step := by
  induction fuel generalizing start with
  | zero =>
    refine iff_of_false not_mem_nil ?_
    rintro ⟨hx, k, rfl⟩
    omega
  | succ fuel ih =>
    rw [strided]
    split
    · next hlt =>
      rw [mem_cons, ih (by omega)]
      constructor
      · rintro (rfl | ⟨hx, k, rfl⟩)
        · exact ⟨hlt, 0, by omega⟩
        · exact ⟨hx, k + 1, by rw [Nat.succ_mul]; omega⟩
      · rintro ⟨hx, k, rfl⟩
        cases k with
        | zero => exact .inl (by omega)
        | succ k => exact .inr ⟨hx, k, by rw [Nat.succ_mul]; omega⟩
    · next hge =>
      refine iff_of_false not_mem_nil ?_
      rintro ⟨hx, k, rfl⟩
      omega

theorem nodup_strided (hstep : 0 < step) {fuel start : ℕ} (hfuel : bound ≤ start + fuel) :
    (strided step bound fuel start).Nodup := by
  induction fuel generalizing start with
  | zero => exact nodup_nil
  | succ fuel ih =>
    rw [strided]
    split
    · refine nodup_cons.mpr ⟨fun hmem => ?_, ih (by omega)⟩
      obtain ⟨-, k, hk⟩ := (mem_strided hstep (by omega)).mp hmem
      omega
    · exact nodup_nil

theorem strided_cover (hstep : 0 < step) (bound off : ℕ) :
    ((range step).flatMap fun t => loopFrom step bound (off + t)).Perm
      (range' off (bound - off)) := by
  have hfuel : ∀ t, bound ≤ off + t + bound := fun t => by omega
  refine (perm_ext_iff_of_nodup ?_ nodup_range').mpr fun x => ?_
  · refine nodup_flatMap.mpr ⟨fun t _ => nodup_strided hstep (hfuel t), ?_⟩
    refine nodup_range.imp_of_mem fun {t t'} ht ht' hne x hx hx' => hne ?_
    obtain ⟨-, k, rfl⟩ := (mem_strided hstep (hfuel t)).mp hx
    obtain ⟨-, k', hk'⟩ := (mem_strided hstep (hfuel t')).mp hx'
    have heq : t + k * step = t' + k' * step := by omega
    have hmod : (t + k * step) % step = (t' + k' * step) % step := by rw [heq]
    rwa [Nat.add_mul_mod_self_right, Nat.add_mul_mod_self_right,
      Nat.mod_eq_of_lt (mem_range.mp ht), Nat.mod_eq_of_lt (mem_range.mp ht')] at hmod
  · rw [mem_flatMap, mem_range'_1]
    constructor
    · rintro ⟨t, -, hx⟩
      obtain ⟨hlt, k, rfl⟩ := (mem_strided hstep (hfuel t)).mp hx
      omega
    · rintro ⟨hle, hlt⟩
      refine ⟨(x - off) % step, mem_range.mpr (Nat.mod_lt _ hstep), ?_⟩
      refine (mem_strided hstep (hfuel _)).mpr ⟨by omega, (x - off) / step, ?_⟩
      have := Nat.mod_add_div' (x - off) step
      omega

theorem loopFrom_cover (hstep : 0 < step) (bound : ℕ) :
    ((range step).flatMap (loopFrom step bound)).Perm (range bound) := by
  have hcover := strided_cover hstep bound 0
  simp only [zero_add, Nat.sub_zero, ← range_eq_range'] at hcover
  exact hcover

end Strided

/-! ### The kernel -/

/-- Both addresses are aligned to 16 bytes. -/
def CopyDesc.aligned (d : CopyDesc) : Bool := (d.device ||| d.hostDevice) &&& 15 = 0

/-- The bytes of a descriptor of `size` bytes that a thread copies. -/
def threadOffsets (blockDim : ℕ) (aligned : Bool) (size thread : ℕ) : List ℕ :=
  if aligned then
    let n16 := size / 16
    ((loopFrom blockDim n16 thread).flatMap fun j => (range 16).map fun k => 16 * j + k) ++
      loopFrom blockDim size (16 * n16 + thread)
  else loopFrom blockDim size thread

/-- Descriptor `i` of the flat array; without it if the index of its last entry overflows an
`int`. -/
def kernelDesc (ds : List CopyDesc) (i : ℕ) : Option CopyDesc :=
  if 3 * i + 2 < 2 ^ 31 then ds[i]? else none

/-- `MAX_GRID` -/
def maxGrid : ℕ := 65535

/-- What a thread does for descriptor `i`; `none` is an access that is not defined. -/
def threadAccesses (ds : List CopyDesc) (gridDim blockDim thread i : ℕ) : List (Option (ℕ × ℕ)) :=
  (match kernelDesc ds i with
    | none => [none]
    | some d => (threadOffsets blockDim d.aligned d.size thread).map fun o =>
        some (d.device + o, d.hostDevice + o)) ++
    -- `i += gridDim.x` wraps to a negative index
    if i + gridDim < 2 ^ 31 then [] else [none]

/-- The accesses of all threads of all blocks. -/
def kernelAccesses (gridDim blockDim : ℕ) (ds : List CopyDesc) : List (Option (ℕ × ℕ)) :=
  (range gridDim).flatMap fun block => (range blockDim).flatMap fun thread =>
    (loopFrom gridDim ds.length block).flatMap (threadAccesses ds gridDim blockDim thread)

variable {ds : List CopyDesc}

section Kernel

variable {gridDim blockDim : ℕ}

theorem range_mul_flatMap (n m : ℕ) :
    ((range n).flatMap fun j => (range m).map fun k => m * j + k) =
      range (m * n) := by
  induction n with
  | zero => rfl
  | succ n ih =>
    rw [range_succ, flatMap_append, ih, flatMap_singleton, Nat.mul_succ,
      range_add]

theorem threadOffsets_cover (hdim : 0 < blockDim) (aligned : Bool) (size : ℕ) :
    ((range blockDim).flatMap (threadOffsets blockDim aligned size)).Perm
      (range size) := by
  cases aligned with
  | false => exact loopFrom_cover hdim size
  | true =>
    have hle : 16 * (size / 16) ≤ size := Nat.mul_div_le size 16
    refine (flatMap_append_perm _ _ _).symm.trans ?_
    rw [← flatMap_assoc]
    refine (((loopFrom_cover hdim _).flatMap_right _).append
      (strided_cover hdim size _)).trans (.of_eq ?_)
    have happend : range' 0 (16 * (size / 16)) ++
        range' (0 + 16 * (size / 16)) (size - 16 * (size / 16)) = _ := range'_append_1
    rw [zero_add, Nat.add_sub_of_le hle] at happend
    rw [range_mul_flatMap, range_eq_range', happend, range_eq_range']

theorem kernelAccesses_perm (hgrid : 0 < gridDim) (ds : List CopyDesc) :
    (kernelAccesses gridDim blockDim ds).Perm ((range ds.length).flatMap fun i =>
      (range blockDim).flatMap fun thread => threadAccesses ds gridDim blockDim thread i) := by
  refine (List.Perm.flatMap_left _ fun block _ => flatMap_flatMap_perm _ _ _).trans ?_
  rw [← flatMap_assoc]
  exact (loopFrom_cover hgrid ds.length).flatMap_right _

/-- **Without overflow every byte is copied once.** -/
theorem kernel_copies_once (hgrid : 0 < gridDim) (hmax : gridDim ≤ maxGrid) (hdim : 0 < blockDim)
    (hsmall : 3 * ds.length ≤ 2 ^ 31) :
    (kernelAccesses gridDim blockDim ds).Perm
      (ds.flatMap fun d => (copyRun d.device d.hostDevice d.size).map some) := by
  refine (kernelAccesses_perm hgrid ds).trans ?_
  have hdescs : (ds.flatMap fun d => (copyRun d.device d.hostDevice d.size).map some) =
      (range ds.length).flatMap fun i =>
        ds[i]?.toList.flatMap fun d => (copyRun d.device d.hostDevice d.size).map some := by
    rw [← flatMap_assoc, ← filterMap_eq_flatMap_toList, filterMap_getElem?_range,
      take_length]
  rw [hdescs]
  refine List.Perm.flatMap_left _ fun i hi => ?_
  have hlt := mem_range.mp hi
  have hdesc : kernelDesc ds i = some ds[i] := by
    rw [kernelDesc, if_pos (by omega), getElem?_eq_getElem hlt]
  have hnext : i + gridDim < 2 ^ 31 := by
    rw [maxGrid] at hmax
    omega
  unfold threadAccesses
  simp only [hdesc, if_pos hnext, append_nil]
  rw [getElem?_eq_getElem hlt, Option.toList_some, flatMap_singleton]
  rw [← map_flatMap]
  refine ((threadOffsets_cover hdim _ _).map _).trans (.of_eq ?_)
  rw [copyRun, map_map]
  rfl

theorem none_mem_kernelAccesses (hgrid : 0 < gridDim) (hdim : 0 < blockDim)
    (hlarge : 2 ^ 31 < 3 * ds.length) : none ∈ kernelAccesses gridDim blockDim ds := by
  rw [(kernelAccesses_perm hgrid ds).mem_iff, mem_flatMap]
  refine ⟨ds.length - 1, mem_range.mpr (by omega), ?_⟩
  refine mem_flatMap.mpr ⟨0, mem_range.mpr hdim, ?_⟩
  rw [threadAccesses, kernelDesc, if_neg (by omega)]
  exact mem_append_left _ (mem_singleton_self none)

end Kernel

/-! ### Both backends -/

/-- The memory after byte copies, done in the order of the list; `dst` and `src` pick the byte
written and the byte read of a pair. -/
def copyBytes (dst src : ℕ × ℕ → ℕ) (source : ℕ → UInt8) (pairs : List (ℕ × ℕ))
    (memory : ℕ → UInt8) : ℕ → UInt8 :=
  pairs.foldl (fun memory p => Function.update memory (dst p) (source (src p))) memory

theorem copyBytes_perm {dst src : ℕ × ℕ → ℕ} {pairs pairs' : List (ℕ × ℕ)} (h : pairs.Perm pairs')
    (hnodup : (pairs.map dst).Nodup) (source memory : ℕ → UInt8) :
    copyBytes dst src source pairs memory = copyBytes dst src source pairs' memory := by
  refine h.foldl_eq' (fun p hp q hq memory => ?_) memory
  rcases eq_or_ne p q with rfl | hne
  · rfl
  · exact Function.update_comm (fun heq => hne (inj_on_of_nodup_map hnodup hp hq heq)) _ _
      memory

/-- What the backends do, the kernel in any order of its accesses. -/
structure BackendsAgree (gridDim blockDim : ℕ) (mapped : ℕ → ℕ) (ds : List CopyDesc) : Prop where
  /-- The merged copies move the bytes of the descriptors. -/
  merged : (merge ds).flatMap Merged.pairs = ds.flatMap CopyDesc.pairs
  /-- A merged copy stays in one host allocation. -/
  allocation : ∀ m ∈ merge ds, ∃ allocation, ∀ p ∈ m.pairs,
    ∃ d ∈ ds, d.hostAllocation = allocation ∧ p ∈ d.pairs
  /-- The kernel copies each byte once. -/
  once : ((kernelAccesses gridDim blockDim ds).map (Option.map (Prod.map id mapped))).Perm
    ((ds.flatMap CopyDesc.pairs).map some)
  /-- Both end in the same memory, in either direction. -/
  memory : ∀ dst src : ℕ × ℕ → ℕ, ((ds.flatMap CopyDesc.pairs).map dst).Nodup →
    ∀ order, (order.map some).Perm
      ((kernelAccesses gridDim blockDim ds).map (Option.map (Prod.map id mapped))) →
    ∀ source memory, copyBytes dst src source order memory =
      copyBytes dst src source ((merge ds).flatMap Merged.pairs) memory

theorem not_backendsAgree {gridDim blockDim : ℕ} (hgrid : 0 < gridDim) (hdim : 0 < blockDim)
    {mapped : ℕ → ℕ} (hlarge : 2 ^ 31 < 3 * ds.length) :
    ¬ BackendsAgree gridDim blockDim mapped ds := by
  intro h
  have hnone := mem_map_of_mem (f := Option.map (Prod.map id mapped))
    (none_mem_kernelAccesses hgrid hdim hlarge)
  obtain ⟨p, -, hp⟩ := mem_map.mp (h.once.subset hnone)
  cases hp

/-- **The backends agree** exactly as long as the kernel's indices fit into an `int`, for any grid
that `submit` launches, any block size, and mapped addresses that name the bytes of the host
memory. -/
theorem backends_agree_iff {gridDim blockDim : ℕ} (hgrid : 0 < gridDim) (hmax : gridDim ≤ maxGrid)
    (hdim : 0 < blockDim) {mapped : ℕ → ℕ} {ds : List CopyDesc}
    (hmapped : ∀ d ∈ ds, ∀ o < d.size, mapped (d.hostDevice + o) = d.host + o) :
    BackendsAgree gridDim blockDim mapped ds ↔ 3 * ds.length ≤ 2 ^ 31 := by
  constructor
  · exact fun h => Nat.le_of_not_lt fun hlarge => not_backendsAgree hgrid hdim hlarge h
  · intro hsmall
    obtain ⟨runs, hflat, hjoined⟩ := merge_joined ds
    have hmerged : (merge ds).flatMap Merged.pairs = ds.flatMap CopyDesc.pairs := by
      rw [← flatMap_eq_of_forall₂ hjoined fun m run h => h.1.symm]
      refine Eq.trans ?_ (congrArg (List.flatMap CopyDesc.pairs) hflat)
      rw [← flatMap_id, flatMap_assoc]
      rfl
    have honce : ((kernelAccesses gridDim blockDim ds).map (Option.map (Prod.map id mapped))).Perm
        ((ds.flatMap CopyDesc.pairs).map some) := by
      refine ((kernel_copies_once hgrid hmax hdim hsmall).map _).trans (.of_eq ?_)
      rw [map_flatMap, map_flatMap]
      refine flatMap_congr fun d hd => ?_
      rw [CopyDesc.pairs, copyRun, copyRun, map_map, map_map, map_map]
      refine map_congr_left fun o ho => ?_
      exact congrArg (fun host => some (d.device + o, host)) (hmapped d hd o (mem_range.mp ho))
    refine ⟨hmerged, fun m hm => ?_, honce, fun dst src hnodup order horder source memory => ?_⟩
    · obtain ⟨run, hrun, hpairs, allocation, halloc⟩ := forall₂_mem_left hjoined hm
      refine ⟨allocation, fun p hp => ?_⟩
      rw [hpairs] at hp
      obtain ⟨d, hd, hp⟩ := mem_flatMap.mp hp
      exact ⟨d, hflat ▸ mem_flatten.mpr ⟨run, hrun, hd⟩, halloc d hd, hp⟩
    · have hperm := (map_perm_map_iff (fun _ _ => Option.some.inj)).mp (horder.trans honce)
      rw [hmerged]
      exact copyBytes_perm hperm ((hperm.map dst).nodup_iff.mpr hnodup) source memory

/-- The first two copies are adjacent, and so is the third, but in another host allocation. -/
def threeCopies : List CopyDesc :=
  [⟨32, 64, 64, 20, 0, 0⟩, ⟨52, 84, 84, 12, 0, 0⟩, ⟨64, 96, 96, 16, 0, 1⟩]

theorem backends_agree_threeCopies :
    merge threeCopies = [⟨32, 64, 32⟩, ⟨64, 96, 16⟩] ∧ BackendsAgree 3 256 id threeCopies :=
  ⟨rfl, (backends_agree_iff (by decide) (by decide) (by decide) (by decide)).mpr (by decide)⟩

/-- A batch that `n` can count and the indices cannot: its copies are empty, so their destinations
are disjoint. -/
theorem backends_disagree :
    ∃ ds : List CopyDesc, ds.length < 2 ^ 30 ∧ ds.flatMap CopyDesc.pairs = [] ∧
      ¬ BackendsAgree 65535 256 id ds := by
  refine ⟨List.replicate 715827883 ⟨0, 0, 0, 0, 0, 0⟩, ?_, ?_, ?_⟩
  · rw [length_replicate]
    decide
  · refine flatMap_eq_nil_iff.mpr fun d hd => ?_
    rw [eq_of_mem_replicate hd]
    rfl
  · exact not_backendsAgree (by decide) (by decide) (by rw [length_replicate]; decide)

end PegaFlow.Transfer
