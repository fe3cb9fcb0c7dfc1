import DvivonOS.Memory.PmmRuns
import DvivonOS.Memory.Windows

/-!
# Isolation of address spaces

What the frames of memory serve as: directories, user page tables and user pages, over all address
spaces that have been created. The functions of `vmm.c` keep the uses apart from each other, from the
kernel's page tables and from the free frames of the bitmap.

Each function makes one or two changes to the tables (`Spaces.newTable`, `Spaces.setPage`,
`Spaces.newDir`); everything else that it writes is in frames that are no tables (`Spaces.data`).
-/

namespace DvivonOS.Windows

open List Paging

/-! ## Uses of frames -/

/-- What a frame can be used for: a directory, the table of slot `i` of a directory, or the page of
entry `j` of that table. -/
inductive Use
  | dir (d : ℕ)
  | table (d i : ℕ)
  | page (d i j : ℕ)
  deriving DecidableEq

def named (mem : Bytes) (t i : ℕ) : Option ℕ :=
  if IsPresent (entry mem t i) then some (frameOf (entry mem t i)) else none

/-- Frame `f` has the use `u` in the user halves of the directories. -/
def Serves (mem : Bytes) (dirs : List ℕ) : Use → ℕ → Prop
  | .dir d, f => d ∈ dirs ∧ f = d
  | .table d i, f => d ∈ dirs ∧ i < 768 ∧ named mem d i = some f
  | .page d i j, f => d ∈ dirs ∧ i < 768 ∧ j < 1024 ∧
      ∃ t, named mem d i = some t ∧ named mem t j = some f

/-- No frame has two uses, and every frame with a use is marked in the bitmap. -/
structure Isolated (dirs : List ℕ) (c : View Pmm) : Prop where
  unique : ∀ u u' f, Serves c.mem dirs u f → Serves c.mem dirs u' f → u = u'
  used : ∀ u f, Serves c.mem dirs u f → testBit (f / pageSize) c.rest.bitmap = true

/-- The directory that the boot code loads, and the kernel's page tables by slot. -/
structure Kernel where
  boot : ℕ
  table : ℕ → ℕ

/-- A slot of the kernel's page tables; slot 1022 is the scratch slot, slot 1023 the directory. -/
def KernelSlot (i : ℕ) : Prop := 768 ≤ i ∧ i < 1022

theorem KernelSlot.lt {i : ℕ} (h : KernelSlot i) : i < 1024 := h.2.trans (by norm_num)

/-- All address spaces. The boot code does not mark its reference of the directory to itself as
global, `vmm_create_address_space` does. -/
structure Spaces (K : Kernel) (dirs : List ℕ) (c : View Pmm) : Prop extends Isolated dirs c where
  pmm : c.rest.Ok
  current : c.cr3 ∈ dirs
  frame : ∀ d ∈ dirs, Aligned d ∧ d < 2 ^ 32
  self : ∀ d ∈ dirs, SelfMapped c.mem d
  selfGlobal : ∀ d ∈ dirs, isGlobal (entry c.mem d 1023) = decide (d ≠ K.boot)
  boot : K.boot ∈ dirs
  kernel : ∀ d ∈ dirs, ∀ i, KernelSlot i → named c.mem d i = some (K.table i)
  plain : ∀ d ∈ dirs, ∀ i < 1022, isGlobal (entry c.mem d i) = false
  reserved : ∀ i, KernelSlot i → testBit (K.table i / pageSize) c.rest.bitmap = true
  apart : ∀ i, KernelSlot i → ∀ u f, Serves c.mem dirs u f → f ≠ K.table i
  nonzero : ∀ u f, Serves c.mem dirs u f → f ≠ 0

section Named

variable {mem mem' : Bytes} {t i f : ℕ}

theorem named_congr (h : entry mem' t i = entry mem t i) : named mem' t i = named mem t i := by
  unfold named
  rw [h]

theorem named_eq_some (h : named mem t i = some f) :
    IsPresent (entry mem t i) ∧ f = frameOf (entry mem t i) := by
  unfold named at h
  split at h
  case isTrue hp => exact ⟨hp, (Option.some.inj h).symm⟩
  case isFalse => cases h

theorem named_of_present (h : IsPresent (entry mem t i)) :
    named mem t i = some (frameOf (entry mem t i)) := if_pos h

theorem named_of_entry {k : ℕ} (he : entry mem t i = f + k) (hf : Aligned f) (hk : k < 4096)
    (hodd : k % 2 = 1) : named mem t i = some f := by
  have hp : IsPresent (entry mem t i) := he ▸ isPresent_add hf hodd
  rw [named_of_present hp, he, frameOf_add hf hk]

theorem named_of_not_present (h : ¬IsPresent (entry mem t i)) : named mem t i = none := if_neg h

theorem lookup_congr_entries {d p : ℕ} (hpde : entry mem' d (p / 1024) = entry mem d (p / 1024))
    (hpte : ∀ t, named mem d (p / 1024) = some t →
      entry mem' t (p % 1024) = entry mem t (p % 1024)) : lookup mem' d p = lookup mem d p := by
  simp only [Paging.lookup, hpde]
  by_cases hp : IsPresent (entry mem d (p / 1024))
  · rw [hpte _ (named_of_present hp)]
  · rw [if_neg fun h => hp h.1, if_neg fun h => hp h.1]

theorem aligned_of_named (h : named mem t i = some f) : Aligned f := by
  rw [(named_eq_some h).2]
  exact aligned_frameOf _

end Named

/-! ## Tables -/

/-- Frame `t` is a directory or a user page table. -/
def UserTable (mem : Bytes) (dirs : List ℕ) (t : ℕ) : Prop :=
  t ∈ dirs ∨ ∃ d i, Serves mem dirs (.table d i) t

def IsTable (K : Kernel) (mem : Bytes) (dirs : List ℕ) (t : ℕ) : Prop :=
  UserTable mem dirs t ∨ ∃ i, KernelSlot i ∧ t = K.table i

/-- The tables `P` are the same in both memories. -/
def SameTables (P : ℕ → Prop) (mem mem' : Bytes) : Prop :=
  ∀ t, P t → ∀ i < 1024, entry mem' t i = entry mem t i

/-- Of the tables `P` only entry `i₀` of `t₀` has changed, to `e`. -/
def SetEntry (P : ℕ → Prop) (t₀ i₀ e : ℕ) (mem mem' : Bytes) : Prop :=
  ∀ t, P t → ∀ i < 1024, entry mem' t i = if t = t₀ ∧ i = i₀ then e else entry mem t i

section Same

variable {K : Kernel} {P : ℕ → Prop} {dirs : List ℕ} {mem mem' mem'' : Bytes} {u : Use} {f t : ℕ}

theorem SameTables.serves (h : SameTables (UserTable mem dirs) mem mem') :
    Serves mem' dirs u f ↔ Serves mem dirs u f := by
  have hdir {d i : ℕ} (hd : d ∈ dirs) (hi : i < 768) : named mem' d i = named mem d i :=
    named_congr (h d (.inl hd) i (by omega))
  cases u with
  | dir d => exact Iff.rfl
  | table d i =>
    refine and_congr_right fun hd => and_congr_right fun hi => ?_
    rw [hdir hd hi]
  | page d i j =>
    refine and_congr_right fun hd => and_congr_right fun hi => and_congr_right fun hj => ?_
    rw [hdir hd hi]
    refine exists_congr fun t => and_congr_right fun ht => ?_
    rw [named_congr (h t (.inr ⟨d, i, hd, hi, ht⟩) j hj)]

theorem SameTables.trans (h : SameTables P mem mem') (h' : SameTables P mem' mem'') :
    SameTables P mem mem'' := fun t ht i hi => (h' t ht i hi).trans (h t ht i hi)

theorem SameTables.user (h : SameTables (IsTable K mem dirs) mem mem') :
    SameTables (UserTable mem dirs) mem mem' := fun t ht => h t (.inl ht)

theorem SetEntry.trans {t₀ i₀ e : ℕ} (h : SetEntry P t₀ i₀ e mem mem')
    (h' : SameTables P mem' mem'') : SetEntry P t₀ i₀ e mem mem'' := fun t ht i hi =>
  (h' t ht i hi).trans (h t ht i hi)

theorem SetEntry.same {Q : ℕ → Prop} {t₀ i₀ e : ℕ} (h : SetEntry P t₀ i₀ e mem mem')
    (hQ : ∀ t, Q t → P t ∧ t ≠ t₀) : SameTables Q mem mem' := fun t ht i hi => by
  rw [h t (hQ t ht).1 i hi, if_neg fun he => (hQ t ht).2 he.1]

end Same

section Spaces

variable {K : Kernel} {dirs : List ℕ} {c : View Pmm} {mem' : Bytes} {t f i e : ℕ}

section Kept

variable (h : Spaces K dirs c)

include h

theorem Spaces.aligned (ht : IsTable K c.mem dirs t) : Aligned t := by
  obtain (hd | ⟨d, i, -, -, hn⟩) | ⟨i, hi, rfl⟩ := ht
  · exact (h.frame t hd).1
  · exact aligned_of_named hn
  · exact aligned_of_named (h.kernel c.cr3 h.current i hi)

theorem Spaces.serves_aligned {u : Use} (hu : Serves c.mem dirs u f) : Aligned f := by
  cases u with
  | dir d => exact hu.2 ▸ (h.frame d hu.1).1
  | table d i => exact aligned_of_named hu.2.2
  | page d i j =>
    obtain ⟨-, -, -, t, -, hf⟩ := hu
    exact aligned_of_named hf

theorem Spaces.sameTables (hf : ¬IsTable K c.mem dirs f) (hm : OnlyIn f c.mem mem') :
    SameTables (IsTable K c.mem dirs) c.mem mem' := by
  intro t ht i hi
  exact hm.entry (h.aligned ht) (fun he => hf (he ▸ ht)) hi

theorem Spaces.setEntry (ht : IsTable K c.mem dirs t) (hi : i < 1024) (he : e < 2 ^ 32) :
    SetEntry (IsTable K c.mem dirs) t i e c.mem (c.mem.put32 (t + 4 * i) e) := by
  intro t' ht' i' hi'
  by_cases htt : t' = t
  · subst htt
    by_cases hii : i' = i
    · subst hii
      rw [if_pos ⟨rfl, rfl⟩, entry_put32_self he]
    · rw [if_neg fun h => hii h.2, entry_put32_of_ne e hii]
  · rw [if_neg fun h => htt h.1, (onlyIn_put32 (h.aligned ht) hi e).entry (h.aligned ht') htt hi']

/-- An entry of a kernel page table is set: no directory and no user page table is written. -/
theorem Spaces.setKernelEntry {j : ℕ} (hi : KernelSlot i) (hj : j < 1024) (he : e < 2 ^ 32) :
    SetEntry (IsTable K c.mem dirs) (K.table i) j e c.mem (c.mem.put32 (K.table i + 4 * j) e) ∧
      SameTables (UserTable c.mem dirs) c.mem (c.mem.put32 (K.table i + 4 * j) e) := by
  have hset := h.setEntry (t := K.table i) (.inr ⟨i, hi, rfl⟩) hj he
  refine ⟨hset, hset.same fun t ht => ⟨.inl ht, ?_⟩⟩
  obtain hd | ⟨d, k, hs⟩ := ht
  · exact h.apart i hi (.dir t) t ⟨hd, rfl⟩
  · exact h.apart i hi _ t hs

/-- Writes outside the directories and the user page tables keep everything. -/
theorem Spaces.data (hs : SameTables (UserTable c.mem dirs) c.mem mem') :
    Spaces K dirs { c with mem := mem' } where
  unique u u' f hu hu' := h.unique u u' f (hs.serves.mp hu) (hs.serves.mp hu')
  used u f hu := h.used u f (hs.serves.mp hu)
  pmm := h.pmm
  current := h.current
  frame := h.frame
  self d hd := (h.self d hd).congr (hs d (.inl hd) 1023 (by norm_num))
  selfGlobal d hd := by
    rw [hs d (.inl hd) 1023 (by norm_num)]
    exact h.selfGlobal d hd
  boot := h.boot
  kernel d hd i hi := by
    rw [named_congr (hs d (.inl hd) i hi.lt)]
    exact h.kernel d hd i hi
  plain d hd i hi := by
    rw [hs d (.inl hd) i (by omega)]
    exact h.plain d hd i hi
  reserved := h.reserved
  apart i hi u f hu := h.apart i hi u f (hs.serves.mp hu)
  nonzero u f hu := h.nonzero u f (hs.serves.mp hu)

end Kept

end Spaces

/-! ## Frames that have been taken -/

/-- A frame that is marked in the bitmap and has no use yet. -/
structure Spare (K : Kernel) (dirs : List ℕ) (c : View Pmm) (f : ℕ) : Prop where
  aligned : Aligned f
  lt : f < 2 ^ 32
  used : testBit (f / pageSize) c.rest.bitmap = true
  unserved : ∀ u, ¬Serves c.mem dirs u f
  apart : ∀ i, KernelSlot i → f ≠ K.table i
  nonzero : f ≠ 0

section Spare

variable {K : Kernel} {dirs : List ℕ} {c : View Pmm} {mem' : Bytes} {p' : Pmm} {n f g : ℕ}

theorem Spare.not_isTable (h : Spare K dirs c f) : ¬IsTable K c.mem dirs f := by
  rintro ((hd | ⟨d, i, hs⟩) | ⟨i, hi, he⟩)
  · exact h.unserved (.dir f) ⟨hd, rfl⟩
  · exact h.unserved _ hs
  · exact h.apart i hi he

theorem Spare.data (h : Spare K dirs c f) (hs : SameTables (UserTable c.mem dirs) c.mem mem') :
    Spare K dirs { c with mem := mem' } f :=
  ⟨h.aligned, h.lt, h.used, fun u hu => h.unserved u (hs.serves.mp hu), h.apart,
    h.nonzero⟩

theorem frame_of_takes (hok : c.rest.Ok) (ht : Takes c.rest n f p') :
    f / pageSize = n ∧ Aligned f ∧ f < 2 ^ 32 := by
  have hle := hok.le
  have hlt := ht.lt
  have ha := ht.addr
  unfold maxPages bitmapEntryBits at hle
  unfold bitmapEntryBits at hlt
  unfold Aligned
  unfold pageSize at *
  omega

theorem ne_of_takes (hok : c.rest.Ok) (ht : Takes c.rest n f p')
    (hg : testBit (g / pageSize) c.rest.bitmap = true) : g ≠ f := by
  rintro rfl
  rw [(frame_of_takes hok ht).1, ht.clear] at hg
  cases hg

theorem Spaces.take (h : Spaces K dirs c) (ht : Takes c.rest n f p') :
    Spaces K dirs { c with rest := p' } ∧ Spare K dirs { c with rest := p' } f := by
  have hmono {m : ℕ} (hm : testBit m c.rest.bitmap = true) : testBit m p'.bitmap = true := by
    rw [ht.bits, hm, Bool.or_true]
  obtain ⟨hn, ha, hlt⟩ := frame_of_takes h.pmm ht
  constructor
  · exact {
      unique := h.unique
      used := fun u f hu => hmono (h.used u f hu)
      pmm := ht.ok h.pmm
      current := h.current
      frame := h.frame
      self := h.self
      selfGlobal := h.selfGlobal
      boot := h.boot
      kernel := h.kernel
      plain := h.plain
      reserved := fun i hi => hmono (h.reserved i hi)
      apart := h.apart
      nonzero := h.nonzero }
  · refine ⟨ha, hlt, ?_, fun u hu => ?_, fun i hi he => ?_, ht.ne_zero h.pmm⟩
    · rw [hn]
      simp [ht.bits]
    · exact ne_of_takes h.pmm ht (h.used u f hu) rfl
    · exact ne_of_takes h.pmm ht (h.reserved i hi) he.symm

theorem Spare.take (h : Spaces K dirs c) (hg : Spare K dirs c g) (ht : Takes c.rest n f p') :
    Spare K dirs { c with rest := p' } g ∧ g ≠ f :=
  ⟨⟨hg.aligned, hg.lt, by simp only [ht.bits, hg.used, Bool.or_true], hg.unserved, hg.apart,
    hg.nonzero⟩, ne_of_takes h.pmm ht hg.used⟩

end Spare

/-! ## Frames that are left alone -/

/-- The kernel's page tables are the same in both memories. -/
abbrev SameKernel (K : Kernel) (mem mem' : Bytes) : Prop :=
  SameTables (fun t => ∃ i, KernelSlot i ∧ t = K.table i) mem mem'

/-- The kernel's page tables are the same, and the frames with `P` that have no use stay so, with
their bytes. -/
structure Leaves (P : ℕ → Prop) (K : Kernel) (dirs : List ℕ) (c : View Pmm) (dirs' : List ℕ)
    (c' : View Pmm) : Prop where
  kernel : SameKernel K c.mem c'.mem
  spare : ∀ f, P f → Spare K dirs c f → Spare K dirs' c' f
  bytes : ∀ f, P f → Spare K dirs c f → ∀ a, frameOf a = f → c'.mem a = c.mem a

section Leaves

variable {K : Kernel} {dirs dirs' dirs'' : List ℕ} {c c' c'' : View Pmm} {P Q : ℕ → Prop}

theorem Leaves.refl (P : ℕ → Prop) (K : Kernel) (dirs : List ℕ) (c : View Pmm) :
    Leaves P K dirs c dirs c :=
  ⟨fun _ _ _ _ => rfl, fun _ _ h => h, fun _ _ _ _ _ => rfl⟩

theorem Leaves.trans (h : Leaves P K dirs c dirs' c') (h' : Leaves P K dirs' c' dirs'' c'') :
    Leaves P K dirs c dirs'' c'' where
  kernel := h.kernel.trans h'.kernel
  spare f hf hs := h'.spare f hf (h.spare f hf hs)
  bytes f hf hs a ha := (h'.bytes f hf (h.spare f hf hs) a ha).trans (h.bytes f hf hs a ha)

theorem Leaves.of_spare (h : Leaves P K dirs c dirs' c') (hP : ∀ f, Q f → Spare K dirs c f → P f) :
    Leaves Q K dirs c dirs' c' :=
  ⟨h.kernel, fun f hf hs => h.spare f (hP f hf hs) hs, fun f hf hs => h.bytes f (hP f hf hs) hs⟩

/-- A frame is taken first: it is none of those that had no use before. -/
theorem Leaves.after_take {n f : ℕ} {p' : Pmm} (h : Spaces K dirs c) (ht : Takes c.rest n f p')
    (hl : Leaves (fun g => P g ∧ g ≠ f) K dirs { c with rest := p' } dirs' c') :
    Leaves P K dirs c dirs' c' where
  kernel := hl.kernel
  spare g hg hs := hl.spare g ⟨hg, (hs.take h ht).2⟩ (hs.take h ht).1
  bytes g hg hs := hl.bytes g ⟨hg, (hs.take h ht).2⟩ (hs.take h ht).1

end Leaves

/-! ## The three changes of the tables -/

section Changes

variable {K : Kernel} {dirs : List ℕ} {c : View Pmm} {mem' : Bytes} {u : Use} {f g T d i j t e : ℕ}

/-- A new table in an empty slot of the current directory. -/
structure NewTable (K : Kernel) (dirs : List ℕ) (c : View Pmm) (i T : ℕ) (mem' : Bytes) : Prop where
  slot : i < 768
  empty : ¬IsPresent (entry c.mem c.cr3 i)
  spare : Spare K dirs c T
  set : SetEntry (IsTable K c.mem dirs) c.cr3 i (T + 7) c.mem mem'
  clear : ∀ j < 1024, entry mem' T j = 0

theorem entry_of_ne
    (hs : SetEntry (IsTable K c.mem dirs) t i e c.mem mem') (hd : d ∈ dirs) (hj : j < 1024)
    (hne : ¬(d = t ∧ j = i)) : entry mem' d j = entry c.mem d j := by
  rw [hs d (.inl (.inl hd)) j hj, if_neg hne]

theorem isGlobal_add_seven (hT : Aligned T) : isGlobal (T + 7) = false := by
  unfold Aligned at hT
  unfold isGlobal
  rw [decide_eq_false_iff_not]
  omega

theorem not_present_zero : ¬IsPresent 0 := by
  unfold IsPresent
  omega

section AddsUse

variable {dirs' : List ℕ} {u₀ : Use} (h : Spaces K dirs c) (hT : Spare K dirs c T)
  (hs : ∀ {u f}, Serves mem' dirs' u f ↔ Serves c.mem dirs u f ∨ u = u₀ ∧ f = T)

include hs

theorem Spare.add_use (hg : Spare K dirs c g) (hne : g ≠ T) :
    Spare K dirs' { c with mem := mem' } g := by
  refine ⟨hg.aligned, hg.lt, hg.used, fun u hu => ?_, hg.apart, hg.nonzero⟩
  obtain hu | ⟨-, rfl⟩ := hs.mp hu
  · exact hg.unserved u hu
  · exact hne rfl

include h hT

theorem Spaces.add_use_unique {u u' : Use} (hu : Serves mem' dirs' u f)
    (hu' : Serves mem' dirs' u' f) : u = u' := by
  obtain h₁ | ⟨rfl, rfl⟩ := hs.mp hu
  · obtain h₂ | ⟨rfl, rfl⟩ := hs.mp hu'
    · exact h.unique u u' f h₁ h₂
    · exact absurd h₁ (hT.unserved u)
  · obtain h₂ | ⟨rfl, -⟩ := hs.mp hu'
    · exact absurd h₂ (hT.unserved u')
    · rfl

theorem Spaces.add_use (hu : Serves mem' dirs' u f) :
    testBit (f / pageSize) c.rest.bitmap = true ∧ (∀ k, KernelSlot k → f ≠ K.table k) ∧ f ≠ 0 := by
  obtain hu | ⟨-, rfl⟩ := hs.mp hu
  · exact ⟨h.used u f hu, fun k hk => h.apart k hk u f hu, h.nonzero u f hu⟩
  · exact ⟨hT.used, hT.apart, hT.nonzero⟩

omit hT in
/-- What is written is the current directory and the new frame. -/
theorem Leaves.add_use (hset : SetEntry (IsTable K c.mem dirs) c.cr3 i e c.mem mem')
    (hm : ∀ a, frameOf a ≠ c.cr3 → frameOf a ≠ T → mem' a = c.mem a) :
    Leaves (· ≠ T) K dirs c dirs' { c with mem := mem' } where
  kernel := hset.same fun t ht => ⟨.inr ht, by
    obtain ⟨j, hj, rfl⟩ := ht
    exact (h.apart j hj (.dir c.cr3) _ ⟨h.current, rfl⟩).symm⟩
  spare g hne hg := hg.add_use hs hne
  bytes g hne hg a ha := by
    subst ha
    exact hm a (fun he => hg.unserved (.dir c.cr3) ⟨h.current, he⟩) hne

end AddsUse

theorem Spaces.named_table (h : Spaces K dirs c)
    (hset : SetEntry (IsTable K c.mem dirs) c.cr3 i e c.mem mem')
    (ht : Serves c.mem dirs (.table d j) t) {k : ℕ} (hk : k < 1024) :
    named mem' t k = named c.mem t k := by
  have hne : t ≠ c.cr3 := by
    rintro rfl
    cases h.unique _ (.dir c.cr3) c.cr3 ht ⟨h.current, rfl⟩
  refine named_congr ?_
  rw [hset t (.inl (.inr ⟨d, j, ht⟩)) k hk, if_neg fun he => hne he.1]

section NewTable

variable (h : Spaces K dirs c) (hn : NewTable K dirs c i T mem')

include hn in
theorem NewTable.named_of_ne (hd : d ∈ dirs) (hj : j < 1024) (hne : ¬(d = c.cr3 ∧ j = i)) :
    named mem' d j = named c.mem d j := named_congr (entry_of_ne hn.set hd hj hne)

include h hn

theorem NewTable.named_slot : named mem' c.cr3 i = some T := by
  have he : entry mem' c.cr3 i = T + 7 := by
    rw [hn.set c.cr3 (.inl (.inl h.current)) i (by have := hn.slot; omega), if_pos ⟨rfl, rfl⟩]
  exact named_of_entry he hn.spare.aligned (by norm_num) (by norm_num)

theorem NewTable.serves {u : Use} {f : ℕ} :
    Serves mem' dirs u f ↔ Serves c.mem dirs u f ∨ u = .table c.cr3 i ∧ f = T := by
  have hnone : named c.mem c.cr3 i = none := named_of_not_present hn.empty
  cases u with
  | dir d => simp [Serves]
  | table d j =>
    by_cases he : d = c.cr3 ∧ j = i
    · obtain ⟨rfl, rfl⟩ := he
      simp [Serves, hn.named_slot h, hnone, h.current, hn.slot, eq_comm]
    · have hne : Use.table d j ≠ .table c.cr3 i := by simpa using he
      simp only [hne, false_and, or_false]
      refine and_congr_right fun hd => and_congr_right fun hj => ?_
      rw [hn.named_of_ne hd (by omega) he]
  | page d j k =>
    simp only [reduceCtorEq, false_and, or_false]
    refine and_congr_right fun hd => and_congr_right fun hj => and_congr_right fun hk => ?_
    by_cases he : d = c.cr3 ∧ j = i
    · obtain ⟨rfl, rfl⟩ := he
      have hT : named mem' T k = none := named_of_not_present (hn.clear k hk ▸ not_present_zero)
      simp [hn.named_slot h, hnone, hT]
    · rw [hn.named_of_ne hd (by omega) he]
      refine exists_congr fun t => and_congr_right fun ht => ?_
      rw [h.named_table hn.set ⟨hd, hj, ht⟩ hk]

theorem NewTable.spaces : Spaces K dirs { c with mem := mem' } where
  unique _ _ _ hu hu' := h.add_use_unique hn.spare (hn.serves h) hu hu'
  used _ _ hu := (h.add_use hn.spare (hn.serves h) hu).1
  pmm := h.pmm
  current := h.current
  frame := h.frame
  self d hd := by
    have hi := hn.slot
    exact (h.self d hd).congr (entry_of_ne hn.set hd (by norm_num) (by omega))
  selfGlobal d hd := by
    have hi := hn.slot
    rw [entry_of_ne hn.set hd (by norm_num) (by omega)]
    exact h.selfGlobal d hd
  boot := h.boot
  kernel d hd j hj := by
    have hi := hn.slot
    unfold KernelSlot at hj
    rw [hn.named_of_ne hd (by omega) (by omega)]
    exact h.kernel d hd j hj
  plain d hd j hj := by
    rw [hn.set d (.inl (.inl hd)) j (by omega)]
    split
    · exact isGlobal_add_seven hn.spare.aligned
    · exact h.plain d hd j hj
  reserved := h.reserved
  apart k hk _ _ hu := (h.add_use hn.spare (hn.serves h) hu).2.1 k hk
  nonzero _ _ hu := (h.add_use hn.spare (hn.serves h) hu).2.2

theorem NewTable.leaves (hm : ∀ a, frameOf a ≠ c.cr3 → frameOf a ≠ T → mem' a = c.mem a) :
    Leaves (· ≠ T) K dirs c dirs { c with mem := mem' } := .add_use h (hn.serves h) hn.set hm

end NewTable

/-- Entry `j` of the user page table `t` is set. -/
structure SetPage (K : Kernel) (dirs : List ℕ) (c : View Pmm) (d i j t e : ℕ) (mem' : Bytes) :
    Prop where
  table : Serves c.mem dirs (.table d i) t
  lt : j < 1024
  set : SetEntry (IsTable K c.mem dirs) t j e c.mem mem'

section SetPage

variable (h : Spaces K dirs c) (hp : SetPage K dirs c d i j t e mem')

include hp in
theorem SetPage.named_self : named mem' t j = if IsPresent e then some (frameOf e) else none := by
  have he : entry mem' t j = e := by
    rw [hp.set t (.inl (.inr ⟨d, i, hp.table⟩)) j hp.lt, if_pos ⟨rfl, rfl⟩]
  unfold named
  rw [he]

include h hp

theorem SetPage.ne_dir {d' : ℕ} (hd : d' ∈ dirs) : d' ≠ t := by
  rintro rfl
  cases h.unique _ (.dir d') d' hp.table ⟨hd, rfl⟩

theorem SetPage.entry_dir {d' k : ℕ} (hd : d' ∈ dirs) (hk : k < 1024) :
    entry mem' d' k = entry c.mem d' k :=
  entry_of_ne hp.set hd hk fun he => hp.ne_dir h hd he.1

theorem SetPage.serves : Serves mem' dirs u f ↔
    if u = .page d i j then IsPresent e ∧ f = frameOf e else Serves c.mem dirs u f := by
  have hdir {d' i' : ℕ} (hd : d' ∈ dirs) (hi : i' < 768) : named mem' d' i' = named c.mem d' i' :=
    named_congr (hp.entry_dir h hd (by omega))
  cases u with
  | dir d' => simp [Serves]
  | table d' i' =>
    rw [if_neg (by simp)]
    refine and_congr_right fun hd => and_congr_right fun hi => ?_
    rw [hdir hd hi]
  | page d' i' j' =>
    split
    case isTrue he =>
      obtain ⟨rfl, rfl, rfl⟩ := Use.page.inj he
      obtain ⟨hd, hi, ht⟩ := hp.table
      have hself := hp.named_self
      simp only [Serves, hd, hi, hp.lt, hdir hd hi, ht, true_and, Option.some.injEq]
      constructor
      · rintro ⟨_, rfl, hn⟩
        rw [hself] at hn
        split at hn
        case isTrue hpe => exact ⟨hpe, (Option.some.inj hn).symm⟩
        case isFalse => cases hn
      · rintro ⟨hpe, rfl⟩
        exact ⟨t, rfl, hself.trans (if_pos hpe)⟩
    case isFalse he =>
      refine and_congr_right fun hd => and_congr_right fun hi => and_congr_right fun hj => ?_
      rw [hdir hd hi]
      refine exists_congr fun t' => and_congr_right fun ht' => ?_
      refine iff_of_eq (congrArg (· = some f) (named_congr ?_))
      rw [hp.set t' (.inl (.inr ⟨d', i', hd, hi, ht'⟩)) j' hj, if_neg]
      rintro ⟨rfl, rfl⟩
      obtain ⟨rfl, rfl⟩ := Use.table.inj (h.unique _ _ t' hp.table ⟨hd, hi, ht'⟩)
      exact he rfl

/-- The new page, if any, has no other use, and the frames that are left in use are marked. -/
theorem SetPage.spaces {p' : Pmm} (hok : p'.Ok)
    (hres : ∀ k, KernelSlot k → testBit (K.table k / pageSize) p'.bitmap = true)
    (hpage : IsPresent e → Spare K dirs { c with rest := p' } (frameOf e))
    (hused : ∀ u f, u ≠ .page d i j → Serves c.mem dirs u f →
      testBit (f / pageSize) p'.bitmap = true) :
    Spaces K dirs { c with mem := mem', rest := p' } where
  unique u u' f hu hu' := by
    rw [hp.serves h] at hu hu'
    split at hu <;> split at hu'
    case isTrue.isTrue h₁ h₂ => rw [h₁, h₂]
    case isTrue.isFalse => exact absurd hu' (hu.2 ▸ (hpage hu.1).unserved u')
    case isFalse.isTrue => exact absurd hu (hu'.2 ▸ (hpage hu'.1).unserved u)
    case isFalse.isFalse => exact h.unique u u' f hu hu'
  used u f hu := by
    rw [hp.serves h] at hu
    split at hu
    case isTrue => exact hu.2 ▸ (hpage hu.1).used
    case isFalse hne => exact hused u f hne hu
  pmm := hok
  current := h.current
  frame := h.frame
  self d' hd := (h.self d' hd).congr (hp.entry_dir h hd (by norm_num))
  selfGlobal d' hd := by
    rw [hp.entry_dir h hd (by norm_num)]
    exact h.selfGlobal d' hd
  boot := h.boot
  kernel d' hd k hk := by
    rw [named_congr (hp.entry_dir h hd hk.lt)]
    exact h.kernel d' hd k hk
  plain d' hd k hk := by
    rw [hp.entry_dir h hd (by omega)]
    exact h.plain d' hd k hk
  reserved := hres
  apart k hk u f hu := by
    rw [hp.serves h] at hu
    split at hu
    case isTrue => exact hu.2 ▸ (hpage hu.1).apart k hk
    case isFalse => exact h.apart k hk u f hu
  nonzero u f hu := by
    rw [hp.serves h] at hu
    split at hu
    case isTrue => exact hu.2 ▸ (hpage hu.1).nonzero
    case isFalse => exact h.nonzero u f hu

theorem SetPage.spare_of_ne (hg : Spare K dirs c g) (hne : IsPresent e → g ≠ frameOf e) :
    Spare K dirs { c with mem := mem' } g := by
  refine ⟨hg.aligned, hg.lt, hg.used, fun u hu => ?_, hg.apart, hg.nonzero⟩
  rw [hp.serves h] at hu
  split at hu
  case isTrue => exact hne hu.1 hu.2
  case isFalse => exact hg.unserved u hu

theorem SetPage.leaves (hm : OnlyIn t c.mem mem') :
    Leaves (fun g => IsPresent e → g ≠ frameOf e) K dirs c dirs { c with mem := mem' } where
  kernel := hp.set.same fun t' ht' => ⟨.inr ht', by
    obtain ⟨j, hj, rfl⟩ := ht'
    exact (h.apart j hj _ _ hp.table).symm⟩
  spare g hne hg := hp.spare_of_ne h hg hne
  bytes g _ hg a ha := hm a (by rintro rfl; exact hg.unserved _ (ha ▸ hp.table))

end SetPage

/-- A new directory, with an empty user half and the slots of the kernel. Slot 1022 of the current
directory was used on the way. -/
structure NewDir (K : Kernel) (dirs : List ℕ) (c : View Pmm) (N : ℕ) (mem' : Bytes) : Prop where
  spare : Spare K dirs c N
  set : SetEntry (IsTable K c.mem dirs) c.cr3 1022 0 c.mem mem'
  user : ∀ i < 768, entry mem' N i = 0
  kernel : ∀ i, KernelSlot i → entry mem' N i = entry c.mem c.cr3 i
  self : entry mem' N 1023 = N + 0x103

section NewDir

variable {N : ℕ} (h : Spaces K dirs c) (hn : NewDir K dirs c N mem')

include hn in
theorem NewDir.not_mem : N ∉ dirs := fun hd => hn.spare.unserved (.dir N) ⟨hd, rfl⟩

include hn in
theorem NewDir.entry_old (hd : d ∈ dirs) (hj : j < 1024) (hne : j ≠ 1022) :
    entry mem' d j = entry c.mem d j := entry_of_ne hn.set hd hj fun he => hne he.2

include h hn

theorem NewDir.serves {u : Use} {f : ℕ} :
    Serves mem' (N :: dirs) u f ↔ Serves c.mem dirs u f ∨ u = .dir N ∧ f = N := by
  have hnone {j : ℕ} (hj : j < 768) : named mem' N j = none :=
    named_of_not_present (hn.user j hj ▸ not_present_zero)
  have hold {d j : ℕ} (hd : d ∈ dirs) (hj : j < 768) : named mem' d j = named c.mem d j :=
    named_congr (hn.entry_old hd (by omega) (by omega))
  cases u with
  | dir d =>
    simp only [Serves, mem_cons, Use.dir.injEq]
    grind
  | table d j =>
    simp only [Serves, mem_cons, reduceCtorEq, false_and, or_false]
    by_cases hd : d = N
    · simp +contextual [hd, hn.not_mem, hnone]
    · simp only [hd, false_or]
      refine and_congr_right fun hd => and_congr_right fun hj => ?_
      rw [hold hd hj]
  | page d j k =>
    simp only [Serves, mem_cons, reduceCtorEq, false_and, or_false]
    by_cases hd : d = N
    · simp +contextual [hd, hn.not_mem, hnone]
    · simp only [hd, false_or]
      refine and_congr_right fun hd => and_congr_right fun hj => and_congr_right fun hk => ?_
      rw [hold hd hj]
      refine exists_congr fun t => and_congr_right fun ht => ?_
      rw [h.named_table hn.set ⟨hd, hj, ht⟩ hk]

theorem NewDir.spaces : Spaces K (N :: dirs) { c with mem := mem' } where
  unique _ _ _ hu hu' := h.add_use_unique hn.spare (hn.serves h) hu hu'
  used _ _ hu := (h.add_use hn.spare (hn.serves h) hu).1
  pmm := h.pmm
  current := mem_cons_of_mem N h.current
  frame d hd := by
    obtain rfl | hd := mem_cons.mp hd
    · exact ⟨hn.spare.aligned, hn.spare.lt⟩
    · exact h.frame d hd
  self d hd := by
    obtain rfl | hd := mem_cons.mp hd
    · exact selfMapped_of_entry hn.self hn.spare.aligned (by norm_num) (by norm_num)
    · exact (h.self d hd).congr (hn.entry_old hd (by norm_num) (by norm_num))
  selfGlobal d hd := by
    obtain rfl | hd := mem_cons.mp hd
    · have ha := hn.spare.aligned
      have hne : d ≠ K.boot := fun he => hn.not_mem (he ▸ h.boot)
      unfold Aligned at ha
      simp only [isGlobal, hn.self, hne, ne_eq, not_false_eq_true, decide_true, decide_eq_true_eq]
      omega
    · rw [hn.entry_old hd (by norm_num) (by norm_num)]
      exact h.selfGlobal d hd
  boot := mem_cons_of_mem N h.boot
  kernel d hd i hi := by
    have hi' := hi
    unfold KernelSlot at hi'
    obtain rfl | hd := mem_cons.mp hd
    · rw [← h.kernel c.cr3 h.current i hi]
      unfold named
      rw [hn.kernel i hi]
    · rw [named_congr (hn.entry_old hd (by omega) (by omega))]
      exact h.kernel d hd i hi
  plain d hd i hi := by
    obtain rfl | hd := mem_cons.mp hd
    · by_cases hu : i < 768
      · rw [hn.user i hu]
        rfl
      · rw [hn.kernel i ⟨by omega, hi⟩]
        exact h.plain c.cr3 h.current i hi
    · rw [hn.entry_old hd (by omega) (by omega)]
      exact h.plain d hd i hi
  reserved := h.reserved
  apart k hk _ _ hu := (h.add_use hn.spare (hn.serves h) hu).2.1 k hk
  nonzero _ _ hu := (h.add_use hn.spare (hn.serves h) hu).2.2

theorem NewDir.leaves (hm : ∀ a, frameOf a ≠ c.cr3 → frameOf a ≠ N → mem' a = c.mem a) :
    Leaves (· ≠ N) K dirs c (N :: dirs) { c with mem := mem' } :=
  .add_use h (hn.serves h) hn.set hm

end NewDir

end Changes

end DvivonOS.Windows
