import MetricRelay.Agent
import MetricRelay.Aggregate
import MetricRelay.Assembly
import MetricRelay.Broker
import MetricRelay.Bus.Envelope
import MetricRelay.Bus.Publisher
import MetricRelay.Config.Basic
import MetricRelay.Config.Error
import MetricRelay.Config.Sections
import MetricRelay.Config.Source
import MetricRelay.Consumer
import MetricRelay.Flow
import MetricRelay.Health
import MetricRelay.Instant
import MetricRelay.KeyPattern
import MetricRelay.Log.Event
import MetricRelay.Log.Filter
import MetricRelay.Log.Format
import MetricRelay.Log.Level
import MetricRelay.Log.Setup
import MetricRelay.Metric
import MetricRelay.Net.SocketAddress
import MetricRelay.Number.Binary
import MetricRelay.Number.Layout
import MetricRelay.Number.Numeral
import MetricRelay.Number.Scaled
import MetricRelay.Number.Shortest
import MetricRelay.Pipeline
import MetricRelay.Recording
import MetricRelay.Repository
import MetricRelay.Routing
import MetricRelay.Sink
import MetricRelay.Statsd.Client
import MetricRelay.Statsd.Measurement
import MetricRelay.Statsd.SampleRate
import MetricRelay.Statsd.Session
import MetricRelay.Table
import MetricRelay.Text.Affix
import MetricRelay.Text.Quoted
import MetricRelay.Text.Segments
import MetricRelay.Text.Utf8
import MetricRelay.Tracker
import MetricRelay.Trail
import MetricRelay.Wire.Fault
import MetricRelay.Wire.NumberToken
import MetricRelay.Wire.Reader
import MetricRelay.Wire.TextToken
import MetricRelay.Wire.Writer
import MetricRelay.Yaml.Anchors
import MetricRelay.Yaml.Cell
import MetricRelay.Yaml.Node
import MetricRelay.Yaml.Scalar
import MetricRelay.Yaml.Token.Basic
import MetricRelay.Yaml.Token.Block
import MetricRelay.Yaml.Token.Folding
import MetricRelay.Yaml.Token.Plain
import MetricRelay.Yaml.Token.Quoted
import MetricRelay.Yaml.Token.Scan
import MetricRelay.Yaml.Token.Tag
import MetricRelay.Yaml.View
import MetricRelay.Yaml.Writer
import MetricRelay.Proofs.Number.Bits
import MetricRelay.Proofs.Number.Rounding
import MetricRelay.Proofs.Number.Arithmetic
import MetricRelay.Proofs.Number.Decimals
import MetricRelay.Proofs.Number.Range
import MetricRelay.Proofs.Number.Integers
import MetricRelay.Proofs.Tables
import MetricRelay.Proofs.Tracking
import MetricRelay.Proofs.Number.Digits
import MetricRelay.Proofs.Number.Shortest
import MetricRelay.Proofs.Number.Scaled
import MetricRelay.Proofs.Wire.Numbers
import MetricRelay.Proofs.Wire.Growing
import MetricRelay.Proofs.Wire.NumberText
import MetricRelay.Proofs.Wire.Texts
import MetricRelay.Proofs.Wire.Reading
import MetricRelay.Proofs.Wire.Passing
import MetricRelay.Proofs.Wire.RoundTrip
import MetricRelay.Proofs.Delivery
import MetricRelay.Proofs.Grouping
import MetricRelay.Proofs.Storing
import MetricRelay.Proofs.Aggregation
import MetricRelay.Proofs.Telescoping
import MetricRelay.Proofs.Histories
import MetricRelay.Proofs.Wire.Grammar
import MetricRelay.Proofs.Wire.Tokens
import MetricRelay.Proofs.Wire.Values
import MetricRelay.Proofs.Wire.Objects
import MetricRelay.Proofs.Wire.Stepping
import MetricRelay.Proofs.Wire.Forwarding
import MetricRelay.Proofs.Partition
import MetricRelay.Proofs.ByteOrder
import MetricRelay.Proofs.Contents
import MetricRelay.Proofs.Channels
import MetricRelay.Proofs.Naming
import MetricRelay.Proofs.Runs
import MetricRelay.Proofs.Publishing
import MetricRelay.Proofs.Consuming
import MetricRelay.Proofs.Config.Overrides
import MetricRelay.Proofs.KeyPatterns
import MetricRelay.Proofs.Config.Aggregates
import MetricRelay.Proofs.Counting
import MetricRelay.Proofs.Config.Refusals
import MetricRelay.Proofs.Config.Servers
import MetricRelay.Proofs.Refusals
import MetricRelay.Proofs.Keys
import MetricRelay.Proofs.Lookups
import MetricRelay.Proofs.Agreement
import MetricRelay.Proofs.Wire.Truncation
import MetricRelay.Proofs.Wire.Verdicts
import MetricRelay.Proofs.Wire.Forms
import MetricRelay.Proofs.Caching
import MetricRelay.Proofs.Number.Wholes
import MetricRelay.Proofs.Rising
import MetricRelay.Proofs.Publishable
import MetricRelay.Proofs.Number.Order
import MetricRelay.Proofs.Sampling
import MetricRelay.Proofs.Prefixes
import MetricRelay.Proofs.PatternTexts
import MetricRelay.Proofs.Families
import MetricRelay.Proofs.Stacking
import MetricRelay.Proofs.Config.Trees
import MetricRelay.Proofs.Config.Settings
import MetricRelay.Proofs.Config.Overlays
import MetricRelay.Proofs.Config.Saving
