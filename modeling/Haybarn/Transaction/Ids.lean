/-
Transaction identifiers: the three special values of `transaction_t`, their order, and the data a
version check reads of a transaction.
-/
import Mathlib.Data.List.Basic
import Mathlib.Algebra.Group.Nat.Defs

namespace Haybarn.Transaction

/-- `TRANSACTION_ID_START`: transaction ids are at least this, commit ids and start times below. -/
def transactionIdStart : Nat := 4611686018427388000

/-- `MAX_TRANSACTION_ID`, the largest `transaction_t`. -/
def maxTransactionId : Nat := 2 ^ 64 - 1

/-- `NOT_DELETED_ID`: the delete id of a row that is not deleted. -/
def notDeletedId : Nat := 2 ^ 64 - 2

def invalidIndex : Nat := 2 ^ 64 - 1

theorem transactionIdStart_lt_notDeletedId : transactionIdStart < notDeletedId := by decide

theorem notDeletedId_lt_maxTransactionId : notDeletedId < maxTransactionId := by decide

theorem notDeletedId_lt_invalidIndex : notDeletedId < invalidIndex := by decide

end Haybarn.Transaction
