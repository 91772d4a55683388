import RandomDelay.Main
import RandomDelay.Session
import RandomDelay.Proofs.Binary64.Rounded
import RandomDelay.Proofs.Binary64.Value
import RandomDelay.Proofs.Binary64.Arithmetic
import RandomDelay.Proofs.Interval.Bounds
import RandomDelay.Proofs.Number
import RandomDelay.Proofs.Duration.Amount
import RandomDelay.Proofs.Spread.Margin
import RandomDelay.Proofs.Spread.Bounds
import RandomDelay.Proofs.Duration.RoundTrip
import RandomDelay.Proofs.Duration.Overflow
import RandomDelay.Proofs.CommandLine.Event
import RandomDelay.Proofs.CommandLine.Overflow
import RandomDelay.Proofs.Log
import RandomDelay.Proofs.Session.Logging
import RandomDelay.Proofs.Sampling.Completion
import RandomDelay.Proofs.CommandLine.Spelling
import RandomDelay.Proofs.CommandLine.Choice
import RandomDelay.Proofs.CommandLine.Agreement
import RandomDelay.Proofs.Sampling.Printed
import RandomDelay.Proofs.Calendar
import RandomDelay.Proofs.Instant
import RandomDelay.Proofs.Interval.Deferred
import RandomDelay.Proofs.Duration.Grammar
import RandomDelay.Proofs.Session.Draws
import RandomDelay.Proofs.Interval.Coverage
import RandomDelay.Proofs.CommandLine.LevelIndependence
import RandomDelay.Proofs.CommandLine.Trace
import RandomDelay.Proofs.Session.Resources
import RandomDelay.Proofs.Session.Interleaving
import RandomDelay.Proofs.Binary64.Nearest
import RandomDelay.Proofs.Duration.SecondsText
import RandomDelay.Proofs.Duration.Accuracy
import RandomDelay.Proofs.Number.Order
import RandomDelay.Proofs.Interval.Coupling
import RandomDelay.Proofs.Interval.Accuracy
import RandomDelay.Proofs.Interval.Advanced
import RandomDelay.Proofs.Duration.Order
import RandomDelay.Proofs.Text.Grouped
import RandomDelay.Proofs.Sampling.Summary
import RandomDelay.Proofs.Pause
import RandomDelay.Proofs.Duration.Saturation
import RandomDelay.Proofs.Instant.Order
import RandomDelay.Proofs.Instant.Deadline
import RandomDelay.Proofs.Duration.Seconds
import RandomDelay.Proofs.Interval.Seconds
import RandomDelay.Proofs.Duration.ClockText
import RandomDelay.Proofs.Interval.Text
