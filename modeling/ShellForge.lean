import ShellForge.ByteMemory
import ShellForge.RadixTable
import ShellForge.NanoContextProofs
import ShellForge.NanoIsolationProofs
import ShellForge.NanoSafetyProofs
import ShellForge.CText
import ShellForge.ShExpand
import ShellForge.ShExpandProofs
import ShellForge.ShFrontProofs
import ShellForge.ShQuotingProofs
import ShellForge.ShRoundTripProofs
import ShellForge.ShWiringProofs
import ShellForge.GuardedRuns
import ShellForge.ShForegroundProofs
import ShellForge.ShCapacityProofs
import ShellForge.ShCompletionProofs
import ShellForge.NanoShellProofs
import ShellForge.NanoWriteProofs
import ShellForge.RoundRobin
import ShellForge.NanoSleepProofs
import ShellForge.ShCommandText
import ShellForge.ShFailureProofs
import ShellForge.ShSubstituteProofs
import ShellForge.TokenRows
import ShellForge.ShAcceptProofs
import ShellForge.ShCoverProofs
import ShellForge.ShJobMapProofs
import ShellForge.ShJobControlProofs
import ShellForge.ShDispatchProofs
import ShellForge.NanoQuotingProofs
import ShellForge.CheckedBuffer
import ShellForge.NanoTokens
import ShellForge.NanoTokensProofs
import ShellForge.NanoLimitProofs
import ShellForge.NanoReadProofs
import ShellForge.NanoAcceptProofs
import ShellForge.NanoSleepCommandProofs
import ShellForge.NanoSystemProofs
import ShellForge.NanoSystemRunProofs
import ShellForge.NanoPrivateProofs
import ShellForge.NanoProgramProofs
import ShellForge.ShGroupJobsProofs
import ShellForge.ShHeapProofs
import ShellForge.LabelledRuns
import ShellForge.NanoMain
import ShellForge.NanoMainProofs
import ShellForge.NanoPromptProofs
import ShellForge.NanoReplyProofs
import ShellForge.NanoAnswerProofs
import ShellForge.NanoDialogueProofs
