import DvivonOS.Lib.Bytes
import DvivonOS.Memory.Pmm

/-!
# The memory map

The way of the memory map from the BIOS to `pmm_init`: `do_e820` fills `mmap_buffer`, the boot loader
stores its length in `multiboot_info_32`, `_start` copies 4096 bytes from there into the kernel, and
`pmm_init` follows the size fields. A list that the carry flag ends has the size field of one more
entry, and the copy ends inside the entry with index 168.
-/

namespace DvivonOS.E820

open List Bytes

/-! ## `stage2.s` -/

/-- `SMAP` -/
def smap : ℕ := 0x534D4150

/-- What `int 0x15` leaves in the registers, and the 20 bytes that it writes. -/
structure Answer where
  carry : Bool
  eax : ℕ
  ebx : ℕ
  bytes : Bytes

structure Cpu where
  di : ℕ
  mem : Bytes
  /-- Address and length of the stores through `%di`. -/
  writes : List (ℕ × ℕ)

/-- `movl $20, (%di)` and `add $4, %di` -/
def putSize (s : Cpu) : Cpu :=
  ⟨(s.di + 4) % 2 ^ 16, s.mem.put32 s.di 20, (s.di, 4) :: s.writes⟩

/-- The bytes of an answer. -/
def fill (bytes : Bytes) (s : Cpu) : Cpu :=
  ⟨s.di, s.mem.copy s.di bytes 20, (s.di, 20) :: s.writes⟩

/-- `.e820_loop`, with the answers of the BIOS. -/
def e820Loop : List Answer → Cpu → Cpu
  | [], s => s
  | a :: as, s =>
    let s := putSize s
    if a.carry then s
    else
      let s := fill a.bytes s
      if a.eax ≠ smap then s
      else
        let s := { s with di := (s.di + 20) % 2 ^ 16 }
        if a.ebx = 0 then s else e820Loop as s

/-- `mmap_buffer` is behind the 13 words of `multiboot_info_32`. -/
def mmapBuffer (info : ℕ) : ℕ := info + 52

def doE820 (info : ℕ) (answers : List Answer) (mem : Bytes) : Cpu :=
  e820Loop answers ⟨mmapBuffer info, mem, []⟩

/-- `mmap_total_length`, a 16-bit difference. -/
def mmapTotalLength (info : ℕ) (s : Cpu) : ℕ := (s.di + 2 ^ 16 - mmapBuffer info) % 2 ^ 16

/-- The words that `build_multiboot_info_32` stores. -/
def multibootInfo (length addr : ℕ) : ℕ → ℕ
  | 0 => 0x41
  | 1 => 640
  | 2 => 31744
  | 3 => 0x8000FFFF
  | 11 => length
  | 12 => addr
  | _ => 0

def buildMultibootInfo32 (info : ℕ) (s : Cpu) : Bytes :=
  s.mem.copy info
    (Bytes.ofWords (multibootInfo (mmapTotalLength info s) (mmapBuffer info))) 52

/-! ## The kernel -/

/-- `_start` copies 4 KiB to `multiboot_copy`. -/
def copyMultiboot (info copy : ℕ) (mem kmem : Bytes) : Bytes := kmem.copy copy (mem.drop info) 4096

/-- `loader_init`: the map and its length. -/
def loaderInit (kmem : Bytes) (virt phys : ℕ) : ℕ × ℕ :=
  if kmem.get32 virt &&& 0x40 ≠ 0 then
    (add32 virt (sub32 (kmem.get32 (virt + 48)) phys), kmem.get32 (virt + 44))
  else (0, 0)

/-- The fields of an entry, whose size field is before `a`. -/
def entryAt (m : Bytes) (a : ℕ) : MmapEntry :=
  ⟨m.get32 a + 2 ^ 32 * m.get32 (a + 4), m.get32 (a + 8) + 2 ^ 32 * m.get32 (a + 12),
    m.get32 (a + 16)⟩

/-- The loop of `pmm_init`: the entries that it visits. -/
def mmapWalk (m : Bytes) (mmapEnd : ℕ) : ℕ → ℕ → Option (List MmapEntry)
  | 0, _ => none
  | fuel + 1, entry =>
    if entry < mmapEnd then
      (mmapWalk m mmapEnd fuel (add32 entry (add32 (m.get32 entry) 4))).map
        (entryAt m (entry + 4) :: ·)
    else some []

/-- The memory of the kernel after a boot. -/
def booted (info copy : ℕ) (answers : List Answer) (mem kmem : Bytes) : Bytes :=
  copyMultiboot info copy (buildMultibootInfo32 info (doE820 info answers mem)) kmem

/-- The entries that `pmm_init` visits then. -/
def visited (info copy : ℕ) (answers : List Answer) (mem kmem : Bytes) (fuel : ℕ) :
    Option (List MmapEntry) :=
  let m := booted info copy answers mem kmem
  let (mmap, length) := loaderInit m copy info
  mmapWalk m (add32 mmap length) fuel mmap

/-! ## What is asked of it -/

inductive Ending
  | ebx
  | carry
  deriving DecidableEq

/-- The answers report the entries, and end with a zero in `%ebx` or with the carry flag. -/
inductive Reports : Ending → List Answer → List Bytes → Prop
  | last (d : Bytes) : Reports .ebx [⟨false, smap, 0, d⟩] [d]
  | carry (eax ebx : ℕ) (d : Bytes) : Reports .carry [⟨true, eax, ebx, d⟩] []
  | more {e : Ending} {as : List Answer} {ds : List Bytes} {ebx : ℕ} (hebx : ebx ≠ 0) (d : Bytes)
    (h : Reports e as ds) : Reports e (⟨false, smap, ebx, d⟩ :: as) (d :: ds)

/-- Nothing is written outside `mmap_buffer`, and `pmm_init` visits the entries that were reported,
whatever is in the memory of the boot loader and of the kernel. -/
def Right (info copy : ℕ) (answers : List Answer) (ds : List Bytes) : Prop :=
  ∀ mem kmem,
    (∀ w ∈ (doE820 info answers mem).writes,
      mmapBuffer info ≤ w.1 ∧ w.1 + w.2 ≤ mmapBuffer info + 4096) ∧
    ∃ fuel, visited info copy answers mem kmem fuel = some (ds.map fun d => entryAt d 0)

/-- The boot loader is in the first 64 KiB, the kernel in the first 4 MiB of its half. -/
structure Placed (info copy : ℕ) : Prop where
  loader : mmapBuffer info + 4096 < 2 ^ 16
  kernel : copy + 4096 ≤ 0xC0400000

/-! ## Entries in memory -/

/-- Entries with their size fields, one behind the other. -/
def Laid (m : Bytes) : ℕ → List Bytes → Prop
  | _, [] => True
  | a, d :: ds => m.get32 a = 20 ∧ (∀ i < 20, m (a + 4 + i) = d i) ∧ Laid m (a + 24) ds

section Laid

variable {m m' : Bytes} {a b e : ℕ} {d : Bytes} {ds : List Bytes}

theorem Laid.shift (h : Laid m a ds) (hm : ∀ i < 24 * ds.length, m' (b + i) = m (a + i)) :
    Laid m' b ds := by
  induction ds generalizing a b with
  | nil => trivial
  | cons d ds ih =>
    rw [length_cons] at hm
    obtain ⟨hsize, hd, hds⟩ := h
    refine ⟨?_, fun i hi => ?_, ih hds fun i hi => ?_⟩
    · rw [← hsize]
      exact get32_shift fun i hi => hm i (by omega)
    · rw [← hd i hi, Nat.add_assoc, hm (4 + i) (by omega), Nat.add_assoc]
    · rw [Nat.add_assoc, hm (24 + i) (by omega), Nat.add_assoc]

theorem Laid.take (h : Laid m a ds) (k : ℕ) : Laid m a (ds.take k) := by
  induction ds generalizing a k with
  | nil =>
    rw [take_nil]
    trivial
  | cons d ds ih =>
    obtain _ | k := k
    · trivial
    · exact ⟨h.1, h.2.1, ih h.2.2 k⟩

theorem entryAt_eq (h : ∀ i < 20, m (a + i) = d i) : entryAt m a = entryAt d 0 := by
  have hword : ∀ k, k + 4 ≤ 20 → m.get32 (a + k) = d.get32 (0 + k) := fun k hk =>
    get32_shift fun i hi => by rw [Nat.add_assoc, h (k + i) (by omega), Nat.zero_add]
  unfold entryAt
  rw [hword 4 (by omega), hword 8 (by omega), hword 12 (by omega), hword 16 (by omega)]
  rw [← Nat.add_zero a, hword 0 (by omega)]

theorem next_entry (hsize : m.get32 a = 20) (ha : a + 24 < 2 ^ 32) :
    add32 a (add32 (m.get32 a) 4) = a + 24 := by
  rw [hsize]
  unfold add32
  omega

/-- A walk that ends with the last entry visits all of them. -/
theorem mmapWalk_laid (h : Laid m a ds) (he : a + 24 * ds.length < 2 ^ 32) :
    mmapWalk m (a + 24 * ds.length) (ds.length + 1) a = some (ds.map fun d => entryAt d 0) := by
  induction ds generalizing a with
  | nil => simp [mmapWalk]
  | cons d ds ih =>
    rw [length_cons] at he ⊢
    obtain ⟨hsize, hd, hds⟩ := h
    have hrest := ih hds (by omega)
    rw [mmapWalk, if_pos (by omega), next_entry hsize (by omega), map_cons, ← entryAt_eq hd]
    rw [show a + 24 * (ds.length + 1) = a + 24 + 24 * ds.length by ring, hrest]
    rfl

/-- A walk that does not end there goes on. -/
theorem mmapWalk_beyond {l : List MmapEntry} {fuel : ℕ} (h : Laid m a ds)
    (he : a + 24 * ds.length < e) (ha : a + 24 * ds.length < 2 ^ 32)
    (hw : mmapWalk m e fuel a = some l) :
    ∃ l', l = (ds.map fun d => entryAt d 0) ++ entryAt m (a + 24 * ds.length + 4) :: l' := by
  induction ds generalizing a l fuel with
  | nil =>
    obtain _ | fuel := fuel
    · cases hw
    rw [mmapWalk, if_pos (by simpa using he)] at hw
    obtain ⟨l', -, rfl⟩ := Option.map_eq_some_iff.mp hw
    exact ⟨l', rfl⟩
  | cons d ds ih =>
    rw [length_cons] at he ha
    obtain ⟨hsize, hd, hds⟩ := h
    obtain _ | fuel := fuel
    · cases hw
    rw [mmapWalk, if_pos (by omega), next_entry hsize (by omega)] at hw
    obtain ⟨l₁, hl₁, rfl⟩ := Option.map_eq_some_iff.mp hw
    obtain ⟨l', rfl⟩ := ih hds (by omega) (by omega) hl₁
    refine ⟨l', ?_⟩
    rw [map_cons, cons_append, ← entryAt_eq hd, length_cons,
      show a + 24 * (ds.length + 1) + 4 = a + 24 + 24 * ds.length + 4 by ring]

end Laid

/-! ## The loop -/

section Loop

variable {s : Cpu} {e : Ending} {as : List Answer} {ds : List Bytes}

/-- The bytes of the size field behind a list that the carry flag ends. -/
def Ending.extra : Ending → ℕ
  | .ebx => 0
  | .carry => 4

theorem Ending.extra_le (e : Ending) : e.extra ≤ 4 := by
  cases e <;> decide

/-- What the loop leaves when there is room for the entries. -/
structure Filled (e : Ending) (ds : List Bytes) (s s' : Cpu) : Prop where
  di : s'.di = s.di + 24 * ds.length + e.extra
  laid : Laid s'.mem s.di ds
  size : e = .carry → s'.mem.get32 (s.di + 24 * ds.length) = 20
  before : ∀ i < s.di, s'.mem i = s.mem i
  writes : ∀ w ∈ s'.writes, w ∈ s.writes ∨
    s.di ≤ w.1 ∧ w.1 + w.2 ≤ s.di + 24 * ds.length + e.extra

def putEntry (d : Bytes) (s : Cpu) : Cpu :=
  { fill d (putSize s) with di := ((putSize s).di + 20) % 2 ^ 16 }

theorem e820Loop_last (d : Bytes) : e820Loop [⟨false, smap, 0, d⟩] s = putEntry d s := by
  rw [e820Loop]
  simp only [Bool.false_eq_true, if_false, ne_eq, not_true_eq_false, if_true]
  rfl

theorem e820Loop_more {ebx : ℕ} (hebx : ebx ≠ 0) (d : Bytes) :
    e820Loop (⟨false, smap, ebx, d⟩ :: as) s = e820Loop as (putEntry d s) := by
  rw [e820Loop]
  simp only [Bool.false_eq_true, if_false, ne_eq, not_true_eq_false, hebx]
  rfl

theorem filled_putEntry (d : Bytes) (hroom : s.di + 24 < 2 ^ 16) :
    Filled .ebx [d] s (putEntry d s) := by
  have hdi : (s.di + 4) % 2 ^ 16 = s.di + 4 := Nat.mod_eq_of_lt (by omega)
  have hmem : (putEntry d s).mem = (s.mem.put32 s.di 20).copy (s.di + 4) d 20 := by
    show (s.mem.put32 s.di 20).copy ((s.di + 4) % 2 ^ 16) d 20 = _
    rw [hdi]
  refine ⟨?_, ⟨?_, fun i hi => ?_, trivial⟩, by simp, fun i hi => ?_, fun w hw => ?_⟩
  · show ((s.di + 4) % 2 ^ 16 + 20) % 2 ^ 16 = s.di + 24 * 1 + 0
    omega
  · rw [hmem, get32_congr fun i _ _ => copy_of_not_mem _ _ (by omega)]
    exact get32_put32_of_lt _ _ (by norm_num)
  · rw [hmem, copy_of_mem _ _ (by omega) (by omega), Nat.add_sub_cancel_left]
  · rw [hmem, copy_of_not_mem _ _ (by omega), put32_of_not_mem _ _ (by omega)]
  · have hw' : w = ((s.di + 4) % 2 ^ 16, 20) ∨ w = (s.di, 4) ∨ w ∈ s.writes := by
      simpa [putEntry, fill, putSize] using hw
    rw [hdi] at hw'
    obtain rfl | rfl | hw := hw'
    · exact .inr ⟨by simp, by simp [Ending.extra]⟩
    · exact .inr ⟨by simp, by simp [Ending.extra]⟩
    · exact .inl hw

theorem filled_e820Loop (h : Reports e as ds) (hroom : s.di + 24 * ds.length + 4 < 2 ^ 16) :
    Filled e ds s (e820Loop as s) := by
  induction h generalizing s with
  | last d =>
    rw [e820Loop_last]
    rw [length_singleton] at hroom
    exact filled_putEntry d (by omega)
  | carry eax ebx d =>
    have hdi : (s.di + 4) % 2 ^ 16 = s.di + 4 := Nat.mod_eq_of_lt (by omega)
    refine ⟨hdi, trivial, fun _ => get32_put32_of_lt _ _ (by norm_num), fun i hi => ?_,
      fun w hw => ?_⟩
    · exact put32_of_not_mem _ _ (.inl hi)
    · obtain rfl | hw := mem_cons.mp hw
      · exact .inr ⟨le_rfl, le_rfl⟩
      · exact .inl hw
  | @more e as ds ebx hebx d h ih =>
    rw [length_cons] at hroom
    have hone := filled_putEntry (s := s) d (by omega)
    have hdi : (putEntry d s).di = s.di + 24 := hone.di
    have hrest := ih (s := putEntry d s) (by omega)
    rw [e820Loop_more hebx]
    generalize putEntry d s = s₁ at hone hdi hrest ⊢
    obtain ⟨hdi', hlaid, hsize, hbefore, hwrites⟩ := hrest
    rw [hdi] at hdi' hlaid hsize hbefore hwrites
    obtain ⟨-, ⟨hsize₁, hd, -⟩, -, hbefore₁, hwrites₁⟩ := hone
    refine ⟨?_, ⟨?_, fun i hi => ?_, hlaid⟩, fun he => ?_, fun i hi => ?_, fun w hw => ?_⟩
    · rw [hdi', length_cons]
      ring
    · rw [← hsize₁]
      exact get32_congr fun i _ _ => hbefore i (by omega)
    · rw [hbefore _ (by omega), hd i hi]
    · rw [← hsize he, length_cons]
      congr 1
      ring
    · rw [hbefore i (by omega), hbefore₁ i hi]
    · rw [length_cons]
      obtain hw | hw := hwrites w hw
      · obtain hw | hw := hwrites₁ w hw
        · exact .inl hw
        · exact .inr ⟨hw.1, hw.2.trans (by simp [Ending.extra]; omega)⟩
      · exact .inr ⟨by omega, by omega⟩

theorem writes_subset (h : Reports e as ds) : s.writes ⊆ (e820Loop as s).writes := by
  have hput : ∀ (d : Bytes) (s : Cpu), s.writes ⊆ (putEntry d s).writes := fun d s w hw =>
    mem_cons_of_mem _ (mem_cons_of_mem _ hw)
  induction h generalizing s with
  | last d =>
    rw [e820Loop_last]
    exact hput d s
  | carry eax ebx d => exact fun w hw => mem_cons_of_mem _ hw
  | more hebx d h ih =>
    rw [e820Loop_more hebx]
    exact fun w hw => ih (hput d s hw)

theorem mem_writes (h : Reports e as ds) {k : ℕ} (hk : k < ds.length) :
    ((s.di + 24 * k + 4) % 2 ^ 16, 20) ∈ (e820Loop as s).writes := by
  induction h generalizing s k with
  | last d =>
    obtain rfl : k = 0 := by simpa using hk
    rw [e820Loop_last]
    exact mem_cons_self
  | carry eax ebx d => exact absurd hk (Nat.not_lt_zero k)
  | more hebx d h ih =>
    rw [e820Loop_more hebx]
    obtain _ | k := k
    · exact writes_subset h mem_cons_self
    · have hmem := ih (s := putEntry d s) (Nat.lt_of_succ_lt_succ hk)
      have hdi : (putEntry d s).di = ((s.di + 4) % 2 ^ 16 + 20) % 2 ^ 16 := rfl
      convert hmem using 2
      omega

end Loop

/-! ## The boot -/

section Boot

variable {info copy fuel : ℕ} {e : Ending} {as : List Answer} {ds : List Bytes} {mem kmem : Bytes}

theorem Placed.filled (hp : Placed info copy) (h : Reports e as ds) (hn : ds.length ≤ 170)
    (mem : Bytes) : Filled e ds ⟨mmapBuffer info, mem, []⟩ (doE820 info as mem) :=
  filled_e820Loop h (by have := hp.loader; dsimp only; omega)

theorem Placed.mmapTotalLength_eq (hp : Placed info copy) (h : Reports e as ds)
    (hn : ds.length ≤ 170) (mem : Bytes) :
    mmapTotalLength info (doE820 info as mem) = 24 * ds.length + e.extra := by
  have hdi := (hp.filled h hn mem).di
  have hloader := hp.loader
  have hextra := e.extra_le
  rw [mmapTotalLength, hdi]
  dsimp only
  omega

theorem booted_of_lt {j : ℕ} (hj : j < 4096) :
    booted info copy as mem kmem (copy + j) =
      buildMultibootInfo32 info (doE820 info as mem) (info + j) := by
  rw [booted, copyMultiboot, copy_of_mem _ _ (by omega) (by omega), Nat.add_sub_cancel_left]
  rfl

theorem booted_word {k : ℕ} (hk : k < 13) :
    (booted info copy as mem kmem).get32 (copy + 4 * k) =
      multibootInfo (mmapTotalLength info (doE820 info as mem)) (mmapBuffer info) k % 2 ^ 32 := by
  rw [← get32_ofWords]
  refine get32_shift fun i hi => ?_
  rw [Nat.add_assoc, booted_of_lt (by omega), buildMultibootInfo32,
    copy_of_mem _ _ (by omega) (by omega), Nat.add_sub_cancel_left]

theorem booted_map {j : ℕ} (hj : j < 4044) :
    booted info copy as mem kmem (copy + 52 + j) =
      (doE820 info as mem).mem (mmapBuffer info + j) := by
  rw [Nat.add_assoc, booted_of_lt (by omega), buildMultibootInfo32,
    copy_of_not_mem _ _ (by omega), ← Nat.add_assoc]
  rfl

section Placed

variable (hp : Placed info copy)

include hp

section

variable (h : Reports e as ds) (hn : ds.length ≤ 170)

include h hn

theorem Placed.loaderInit_eq :
    loaderInit (booted info copy as mem kmem) copy info =
      (copy + 52, 24 * ds.length + e.extra) := by
  have hlen := hp.mmapTotalLength_eq h hn mem
  have hloader := hp.loader
  have hkernel := hp.kernel
  have hextra := e.extra_le
  unfold mmapBuffer at hloader
  have hflags : (booted info copy as mem kmem).get32 copy = 0x41 := booted_word (k := 0) (by omega)
  have hlength : (booted info copy as mem kmem).get32 (copy + 44) =
      mmapTotalLength info (doE820 info as mem) % 2 ^ 32 := booted_word (k := 11) (by omega)
  have haddr : (booted info copy as mem kmem).get32 (copy + 48) = (info + 52) % 2 ^ 32 :=
    booted_word (k := 12) (by omega)
  rw [loaderInit, hflags, hlength, haddr, if_pos (by decide), hlen, add32, sub32]
  congr 1 <;> omega

theorem Placed.visited_eq :
    visited info copy as mem kmem fuel =
      mmapWalk (booted info copy as mem kmem) (copy + 52 + 24 * ds.length + e.extra) fuel
        (copy + 52) := by
  have hextra := e.extra_le
  have hkernel := hp.kernel
  unfold visited
  simp only [hp.loaderInit_eq h hn]
  congr 1
  unfold add32
  omega

theorem Placed.laid (mem kmem : Bytes) :
    Laid (booted info copy as mem kmem) (copy + 52) (ds.take 168) := by
  refine ((hp.filled h hn mem).laid.take 168).shift fun i hi => booted_map ?_
  have := length_take_le 168 ds
  omega

end

theorem Placed.right (h : Reports .ebx as ds) (hn : ds.length ≤ 168) : Right info copy as ds := by
  have hkernel := hp.kernel
  refine fun mem kmem => ⟨fun w hw => ?_, ds.length + 1, ?_⟩
  · obtain hw | ⟨hlow, hhigh⟩ := (hp.filled h (by omega) mem).writes w hw
    · cases hw
    · exact ⟨hlow, hhigh.trans (by simp only [Ending.extra]; omega)⟩
  · have hlaid := hp.laid h (by omega) mem kmem
    rw [take_of_length_le hn] at hlaid
    rw [hp.visited_eq h (by omega)]
    exact mmapWalk_laid hlaid (by omega)

theorem Placed.length_le (h : Reports e as ds) (hr : Right info copy as ds) : ds.length ≤ 170 := by
  by_contra hn
  have hloader := hp.loader
  have hw := (hr Bytes.zero Bytes.zero).1 _ (mem_writes h (k := 170) (by omega))
  dsimp only at hw
  omega

/-- Where the walk goes on, there is an entry. -/
theorem Placed.getElem (h : Reports e as ds) (hr : Right info copy as ds) {k : ℕ} (hk : k ≤ 168)
    (hkn : k ≤ ds.length) (hlen : 24 * k < 24 * ds.length + e.extra) (mem kmem : Bytes) :
    (ds.map fun d => entryAt d 0)[k]? =
      some (entryAt (booted info copy as mem kmem) (copy + 52 + 24 * k + 4)) := by
  have hn := hp.length_le h hr
  have hkernel := hp.kernel
  obtain ⟨fuel, hfuel⟩ := (hr mem kmem).2
  rw [hp.visited_eq h hn] at hfuel
  have hlaid := (hp.laid h hn mem kmem).take k
  rw [take_take, min_eq_left hk] at hlaid
  have hlength : (ds.take k).length = k := length_take_of_le hkn
  obtain ⟨l, hl⟩ := mmapWalk_beyond hlaid (by omega) (by omega) hfuel
  have hmap : ((ds.take k).map fun d => entryAt d 0).length = k := by rw [length_map, hlength]
  rw [hl, List.getElem?_append_right hmap.le, hmap, Nat.sub_self, hlength]
  rfl

end Placed

theorem booted_beyond {a : ℕ} (ha : copy + 4096 ≤ a) :
    (booted info copy as mem kmem).get32 a = kmem.get32 a :=
  get32_congr fun _ hi _ => copy_of_not_mem _ _ (.inr (ha.trans hi))

/-- The type of the entry with index 168 is not copied. -/
theorem Placed.length_lt (hp : Placed info copy) (h : Reports e as ds)
    (hr : Right info copy as ds) : ds.length ≤ 168 := by
  by_contra hn
  obtain ⟨k, hk⟩ : ∃ k, k = 168 := ⟨_, rfl⟩
  have hentry := fun kmem => hp.getElem h hr hk.le (by omega) (by omega) Bytes.zero kmem
  have heq := Option.some.inj ((hentry Bytes.zero).symm.trans
    (hentry (Bytes.zero.put32 (copy + 52 + 24 * k + 4 + 16) 1)))
  have htype := congrArg MmapEntry.type heq
  dsimp only [entryAt] at htype
  rw [booted_beyond (by omega), booted_beyond (by omega), get32_zero,
    get32_put32_of_lt _ _ (by norm_num)] at htype
  exact Nat.zero_ne_one htype

/-- The map arrives if and only if a zero in `%ebx` ends the list and it has at most 168
entries. -/
theorem memory_map_right_iff (hp : Placed info copy) (h : Reports e as ds) :
    Right info copy as ds ↔ e = .ebx ∧ ds.length ≤ 168 := by
  refine ⟨fun hr => ⟨?_, hp.length_lt h hr⟩, ?_⟩
  · cases e with
    | ebx => rfl
    | carry =>
      have hentry := hp.getElem h hr (hp.length_lt h hr) le_rfl (by simp [Ending.extra])
        Bytes.zero Bytes.zero
      simp at hentry
  · rintro ⟨rfl, hn⟩
    exact hp.right h hn

theorem memory_map_of_one_entry :
    Right 0x9000 0xC0100000 [⟨false, smap, 0, Bytes.zero⟩] [Bytes.zero] :=
  (memory_map_right_iff ⟨by decide, by decide⟩ (.last _)).mpr ⟨rfl, by decide⟩

/-- After a list that the carry flag ends, an entry is visited that was not reported. -/
theorem carry_adds_entry :
    ¬ Right 0x9000 0xC0100000
      [⟨false, smap, 1, Bytes.zero⟩, ⟨true, smap, 0, Bytes.zero⟩] [Bytes.zero] := by
  intro hr
  have hentry := Placed.getElem ⟨by decide, by decide⟩ (.more (by decide) _ (.carry _ _ _)) hr
    (k := 1) (by decide) le_rfl (by decide) Bytes.zero Bytes.zero
  simp at hentry

end Boot

end DvivonOS.E820
