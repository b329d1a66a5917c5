import Mathlib.Algebra.GroupWithZero.Nat
import Mathlib.Data.Nat.Notation

/-! Constants of the xv6 kernel: param.h, fs.h, mmu.h, memlayout.h and mkfs.c. -/
namespace KernelParams

abbrev BlockNo := BitVec 32

def NPROC : ℕ := 64
def NOFILE : ℕ := 16
def NFILE : ℕ := 100
def MAXOPBLOCKS : ℕ := 10
def LOGSIZE : ℕ := MAXOPBLOCKS * 3

theorem NPROC_pos : 0 < NPROC := by decide
theorem one_lt_NPROC : 1 < NPROC := by decide
theorem NFILE_pos : 0 < NFILE := by decide

def BSIZE : ℕ := 512

/-! Disk layout as mkfs computes it: boot block, superblock, log, inode blocks. -/

def nlog : ℕ := LOGSIZE
def logstart : BlockNo := 2
def inodestart : BlockNo := 2 + BitVec.ofNat 32 nlog

end KernelParams
