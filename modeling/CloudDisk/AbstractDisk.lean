import CloudDisk.ByteStrings
import Mathlib.Data.Finset.Basic

/-! # The cloud disk as its users see it

Users have files, which are contents under names, and may show a file to everybody. The same
content under the same name is shown by one user at a time. There is nothing else: counters,
stored objects and caches belong to the implementation. -/
namespace AbstractDisk

open ByteStrings

structure File where
  user : CString
  md5 : CString
  filename : CString
  deriving DecidableEq

def File.Alike (a b : File) : Prop := a.md5 = b.md5 ∧ a.filename = b.filename

instance (a b : File) : Decidable (a.Alike b) := inferInstanceAs (Decidable (_ ∧ _))

@[ext] structure Disk where
  files : Finset File
  shares : Finset File
  owned : shares ⊆ files
  single : ∀ a ∈ shares, ∀ b ∈ shares, a.Alike b → a = b

namespace Disk

def empty : Disk := ⟨∅, ∅, Finset.Subset.refl _, by simp⟩

def Known (a : Disk) (md5 : CString) : Prop := ∃ e ∈ a.files, e.md5 = md5

def Shown (a : Disk) (e : File) : Prop := ∃ s ∈ a.shares, s.Alike e

instance (a : Disk) (md5 : CString) : Decidable (a.Known md5) :=
  inferInstanceAs (Decidable (∃ e ∈ a.files, e.md5 = md5))

instance (a : Disk) (e : File) : Decidable (a.Shown e) :=
  inferInstanceAs (Decidable (∃ s ∈ a.shares, s.Alike e))

def add (a : Disk) (e : File) : Disk where
  files := insert e a.files
  shares := a.shares
  owned := a.owned.trans (Finset.subset_insert e a.files)
  single := a.single

/-- A file is shown unless it is alike one that is shown, or it is not there. -/
def share (a : Disk) (e : File) : Disk :=
  if h : e ∈ a.files ∧ ¬ a.Shown e then
    { files := a.files
      shares := insert e a.shares
      owned := Finset.insert_subset h.1 a.owned
      single := by
        intro x hx y hy hxy
        rcases Finset.mem_insert.mp hx with hxe | hx <;>
          rcases Finset.mem_insert.mp hy with hye | hy
        · rw [hxe, hye]
        · exact absurd ⟨y, hy, hxe ▸ ⟨hxy.1.symm, hxy.2.symm⟩⟩ h.2
        · exact absurd ⟨x, hx, hye ▸ hxy⟩ h.2
        · exact a.single x hx y hy hxy }
  else a

def withdraw (a : Disk) (e : File) : Disk where
  files := a.files
  shares := a.shares.erase e
  owned := (Finset.erase_subset e a.shares).trans a.owned
  single x hx y hy := a.single x (Finset.mem_of_mem_erase hx) y (Finset.mem_of_mem_erase hy)

def remove (a : Disk) (e : File) : Disk where
  files := a.files.erase e
  shares := a.shares.erase e
  owned := Finset.erase_subset_erase e a.owned
  single x hx y hy := a.single x (Finset.mem_of_mem_erase hx) y (Finset.mem_of_mem_erase hy)

def ownedBy (a : Disk) (user : CString) : Finset File := a.files.filter fun e => e.user = user

theorem share_of (a : Disk) {e : File} (he : e ∈ a.files) (hn : ¬ a.Shown e) :
    (a.share e).files = a.files ∧ (a.share e).shares = insert e a.shares := by
  rw [share, dif_pos ⟨he, hn⟩]
  exact ⟨rfl, rfl⟩

end Disk
end AbstractDisk
