import RowhammerTester.Hdl.Bits
import RowhammerTester.Hdl.Ones
import RowhammerTester.Hdl.Machine
import RowhammerTester.Hdl.Trace
import RowhammerTester.Hdl.Fifo
import RowhammerTester.Hdl.Host
import RowhammerTester.Hdl.Part
import RowhammerTester.Python
import RowhammerTester.Dictionary
import RowhammerTester.Tally
import RowhammerTester.Runs
import RowhammerTester.Gateware.Instruction
import RowhammerTester.Gateware.Codec
import RowhammerTester.Gateware.Dfi
import RowhammerTester.Gateware.RefreshSync
import RowhammerTester.Gateware.Interp
import RowhammerTester.Gateware.PayloadExecutor
import RowhammerTester.Gateware.Refinement
import RowhammerTester.Gateware.Ownership
import RowhammerTester.Gateware.Handover
import RowhammerTester.Gateware.ReadEnable
import RowhammerTester.Gateware.Scratchpad
import RowhammerTester.Gateware.Independence
import RowhammerTester.Gateware.Program
import RowhammerTester.Gateware.ExecutorBoard
import RowhammerTester.Gateware.RowHammerDma
import RowhammerTester.Gateware.Bist.Pattern
import RowhammerTester.Gateware.Bist.Writer
import RowhammerTester.Gateware.Bist.Reader
import RowhammerTester.Gateware.Bist.ReaderInvariant
import RowhammerTester.Gateware.Bist.ReaderProgress
import RowhammerTester.Gateware.Bist.ReaderStart
import RowhammerTester.Gateware.Bist.Flush
import RowhammerTester.Gateware.Bist.RoundTrip
import RowhammerTester.Gateware.Bist.Board
import RowhammerTester.Gateware.Bist.Hammer
import RowhammerTester.Gateware.Soc
import RowhammerTester.Firmware.Traced
import RowhammerTester.Firmware.Bytes
import RowhammerTester.Firmware.Etherbone.Server
import RowhammerTester.Firmware.Etherbone.Semantics
import RowhammerTester.Firmware.Etherbone.Bounds
import RowhammerTester.Firmware.Etherbone.Requests
import RowhammerTester.Firmware.Etherbone.Isolation
import RowhammerTester.Firmware.Etherbone.Search
import RowhammerTester.Firmware.Etherbone.Session
import RowhammerTester.Scripts.AddressConverter
import RowhammerTester.Scripts.Bus
import RowhammerTester.Scripts.BusSession
import RowhammerTester.Scripts.ExecutionCycles
import RowhammerTester.Scripts.Inverters
import RowhammerTester.Scripts.MemTest.Script
import RowhammerTester.Scripts.MemTest.Polling
import RowhammerTester.Scripts.MemTest.FillAndTest
import RowhammerTester.Scripts.MemTest.Rounds
import RowhammerTester.Scripts.ExecutePayload
import RowhammerTester.Scripts.Soc
import RowhammerTester.Scripts.ReadLevel.FindBest
import RowhammerTester.Scripts.ReadLevel.Leveling
import RowhammerTester.Scripts.ReadLevel.Test
import RowhammerTester.Playbook.Generate
import RowhammerTester.Playbook.Payload
import RowhammerTester.Playbook.Execution
import RowhammerTester.Playbook.HammerCount
import RowhammerTester.Playbook.Delays
import RowhammerTester.Playbook.RefreshInterval
import RowhammerTester.Playbook.Handover
import RowhammerTester.Playbook.JumpWidth
import RowhammerTester.Playbook.LongLoop
import RowhammerTester.Playbook.IdlePayload
import RowhammerTester.Playbook.RowMapping
import RowhammerTester.Playbook.LogicalView
import RowhammerTester.Playbook.RowErrors
import RowhammerTester.Playbook.DecodeErrors
import RowhammerTester.Playbook.RowRange
import RowhammerTester.Scripts.RowHammer.Bitflips
import RowhammerTester.Scripts.RowHammer.Rows
import RowhammerTester.Scripts.RowHammer.Records
import RowhammerTester.Scripts.RowHammer.Entries
import RowhammerTester.Scripts.RowHammer.Summary
import RowhammerTester.Scripts.RowHammer.Attack
import RowhammerTester.Scripts.RowHammer.DmaAttack
import RowhammerTester.Scripts.RowHammer.BistAttack
import RowhammerTester.Scripts.RowHammer.Campaign
import RowhammerTester.Scripts.RowHammer.ExecutorAttack
import RowhammerTester.Scripts.RowHammer.ExecutorCampaign
import RowhammerTester.Playbook.ErrorLog
import RowhammerTester.Playbook.HalfDouble.Analysis
import RowhammerTester.Playbook.HalfDouble.Iterations
import RowhammerTester.Playbook.HalfDouble.Phases
import RowhammerTester.Playbook.HalfDouble.Counting
import RowhammerTester.Playbook.HalfDouble.Rows
import RowhammerTester.Playbook.HammerTolerance.Generator
import RowhammerTester.Playbook.HammerTolerance.Adjacent
import RowhammerTester.Playbook.HammerTolerance.Histograms
import RowhammerTester.Playbook.HammerTolerance.FlipTotals
import RowhammerTester.Playbook.HammerTolerance.Accounting
import RowhammerTester.Playbook.Main
import RowhammerTester.Playbook.Retention
import RowhammerTester.Playbook.Attacks
import RowhammerTester.Checker.Table
import RowhammerTester.Checker.History
import RowhammerTester.Checker.Ddr3
import RowhammerTester.Checker.Ddr4
import RowhammerTester.Checker.VerifyPayload
import RowhammerTester.Checker.Refresh
import RowhammerTester.Checker.BankGroups
import RowhammerTester.Checker.Execution
import RowhammerTester.Checker.Issued
import RowhammerTester.Checker.Termination
