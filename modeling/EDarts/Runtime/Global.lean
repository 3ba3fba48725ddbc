/-
  EDarts.Runtime.Global — addresses of the runtime's structures (`e_darts_global.h`,
  `e_darts_cu.h`, `e_darts_su.h`, `darts_rt_params.h`).

  The runtime elements of a CU and of an SU are packed structures; the constants below
  are the offsets of the queues in them.
-/

import EDarts.Multithreading.Mutex

namespace EDarts.Runtime

def DARTS_APPEND_COREID (coreID address : Word) : Word := (coreID <<< 20) + (address &&& 0x000FFFFF)

def DARTS_CODELET_QUEUE_SIZE_BYTES : Word := 200

def DARTS_TPCLOSURES_QUEUE_SIZE_BYTES : Word := 500

def DARTS_NUM_SYNC_SLOTS_PER_SU : Word := 10

/-- `darts_rt_codeletsQueue` in `cu_runtime_elements_t`: behind two pointers. -/
def CU_CODELETS_QUEUE : Word := 2 * 4

/-- `darts_rt_codeletsQueue` in `su_runtime_elements_t`: behind two pointers and the slots. -/
def SU_CODELETS_QUEUE : Word := 2 * 4 + DARTS_NUM_SYNC_SLOTS_PER_SU * 40

/-- `darts_rt_tpclosuresQueue` in `su_runtime_elements_t`: behind the codelets queue and
    its padding. -/
def SU_TPCLOSURES_QUEUE : Word := SU_CODELETS_QUEUE + 16 + DARTS_CODELET_QUEUE_SIZE_BYTES

end EDarts.Runtime
