import Mathlib.Data.Int.Notation

/-!
# Error numbers

Reference: `Include/kernel/errno.h`.
-/

namespace Shaunos.Net

def eBADF : ℤ := 9
def eWOULDBLOCK : ℤ := 11
def eACCES : ℤ := 13
def eFAULT : ℤ := 14
def eINVAL : ℤ := 22
def ePIPE : ℤ := 32
def eNOTSOCK : ℤ := 88
def eDESTADDRREQ : ℤ := 89
def eMSGSIZE : ℤ := 90
def eOPNOTSUPP : ℤ := 95
def eAFNOSUPPORT : ℤ := 97
def eADDRINUSE : ℤ := 98
def eADDRNOTAVAIL : ℤ := 99
def eNETDOWN : ℤ := 100
def eNETUNREACH : ℤ := 101
def eCONNABORTED : ℤ := 103
def eCONNRESET : ℤ := 104
def eNOBUFS : ℤ := 105
def eISCONN : ℤ := 106
def eNOTCONN : ℤ := 107
def eTIMEDOUT : ℤ := 110
def eCONNREFUSED : ℤ := 111
def eHOSTDOWN : ℤ := 112
def eHOSTUNREACH : ℤ := 113
def eALREADY : ℤ := 114
def eINPROGRESS : ℤ := 115

end Shaunos.Net
